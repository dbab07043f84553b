import Borrrdex.Basic
import Borrrdex.Lib.BoundedQueue
import Borrrdex.Lib.CounterLoop
import Borrrdex.Lib.Prefixes
import Borrrdex.Lib.Runs

/-!
# The keyboard's ring

`keyboard_device` keeps the keys in a ring of 256 bytes, with a start, an end and a count of 8 bits
each. That is one bit short for the count: a full ring counts as an empty one, and a write that
fills an empty ring in one go does not end.  The counter of `read` is not initialised at all.

`Fits` are the calls for which neither matters.  A call that fits is the move of a `BoundedQueue`
(`Refines.step`), and the others do what no queue does (`serves_iff`).

The counter's value on entry is an argument of `read` here.
-/

set_option autoImplicit false

namespace Borrrdex

/-- `keyboard_device`. -/
structure Keyboard where
  start : Byte
  endIdx : Byte
  count : Byte
  buffer : Byte → Byte

namespace Keyboard

/-- A new one.  The buffer is not initialised. -/
def new (buffer : Byte → Byte) : Keyboard := ⟨0, 0, 0, buffer⟩

/-- `read_key`, with the key. -/
def readKey (k : Keyboard) : Option (Byte × Keyboard) :=
  if k.count = 0 then none
  else some (k.buffer k.start, { k with count := k.count - 1, start := k.start + 1 })

/-- A read on its way: the caller's buffer, and how far it is filled. -/
structure ReadState where
  keyboard : Keyboard
  dst : ℕ → Byte
  next : ℕ

/-- The body of the loop of `read`. -/
def ReadState.body (s : ReadState) : ReadState ⊕ ReadState :=
  match s.keyboard.readKey with
  | some (key, k) => .inr ⟨k, Function.update s.dst s.next key, s.next + 1⟩
  | none => .inl s

/-- How many keys `read` is going to take. -/
def toRead (k : Keyboard) (n : U64) : ℕ := min n.toNat k.count.toNat

/-- `keyboard_device::read`, with what it returns, if its counter is `i` on entry. -/
def read (i : Byte) (dst : ℕ → Byte) (n : U64) (k : Keyboard) : Option (ℕ × ReadState) :=
  if k.toRead n = 0 then some (0, ⟨k, dst, 0⟩)
  else do
    let (i, s) ← forBelow (k.toRead n) (fun _ s ↦ s.body) i ⟨k, dst, 0⟩
    return (i.toNat, s)

/-- The body of the loop of `write`. -/
def put (key : Byte) (k : Keyboard) : Keyboard :=
  { k with
    buffer := Function.update k.buffer k.endIdx key
    endIdx := k.endIdx + 1
    count := k.count + 1 }

/-- How many keys `write` is going to store. -/
def toWrite (k : Keyboard) (n : U64) : ℕ := min n.toNat (256 - k.count.toNat)

/-- `keyboard_device::write`, with what it returns. -/
def write (b : ℕ → Byte) (n : U64) (k : Keyboard) : Option (ℕ × Keyboard) :=
  if k.toWrite n = 0 then some (0, k)
  else do
    let (_, k') ← forBelow (k.toWrite n)
      (fun (i : Byte) (k : Keyboard) ↦ .inr (k.put (b i.toNat))) 0 k
    return (k.toWrite n, k')

/-- The keys that are pending. -/
def pending (k : Keyboard) : List Byte :=
  prefixOf (fun i ↦ k.buffer (k.start + BitVec.ofNat 8 i)) k.count.toNat

/-- The end is as far from the start as the count says. -/
def Ok (k : Keyboard) : Prop := k.endIdx = k.start + k.count

variable {k k' : Keyboard} {b dst : ℕ → Byte} {n : U64} {key i : Byte}

@[simp] theorem length_pending (k : Keyboard) :
    k.pending.length = k.count.toNat := length_prefixOf _ _

/-! ## Writing -/

theorem Ok.put (h : k.Ok) : (k.put key).Ok := by
  simp only [Ok, Keyboard.put] at *
  rw [h, BitVec.add_assoc]

theorem ofNat_toNat_eight (x : Byte) : BitVec.ofNat 8 x.toNat = x := by simp

theorem pending_put (h : k.Ok) (hroom : k.count.toNat + 1 < 256) :
    (k.put key).pending = k.pending ++ [key] := by
  have hsucc : (k.count + 1).toNat = k.count.toNat + 1 := by bv_omega
  rw [pending, put, hsucc, prefixOf_succ, h, pending]
  congr 1
  · refine prefixOf_congr fun i hi ↦ Function.update_of_ne (fun heq ↦ ?_) _ _
    rw [BitVec.add_right_inj] at heq
    have hlt := congrArg BitVec.toNat heq
    rw [BitVec.toNat_ofNat, Nat.mod_eq_of_lt (by omega)] at hlt
    omega
  · rw [ofNat_toNat_eight]
    exact congrArg ([·]) (Function.update_self _ _ _)

/-- A loop that puts so many keys.  As long as they leave the ring less than full they are pending
behind the others; the count is right only up to a whole ring. -/
theorem putLoop (h : k.Ok) (b : ℕ → Byte) {m : ℕ} (hm : m < 256) : ∃ (j : Byte) (k' : Keyboard),
    forBelow m (fun (i : Byte) (k : Keyboard) ↦ .inr (k.put (b i.toNat))) 0 k = some (j, k') ∧
      k'.count = k.count + BitVec.ofNat 8 m ∧
      (k.count.toNat + m < 256 → k'.Ok ∧ k'.pending = k.pending ++ prefixOf b m) := by
  let Inv (i : ℕ) (k' : Keyboard) : Prop :=
    k'.count = k.count + BitVec.ofNat 8 i ∧
      (k.count.toNat + i < 256 → k'.Ok ∧ k'.pending = k.pending ++ prefixOf b i)
  have hinit : Inv 0 k := ⟨by simp, fun _ ↦ ⟨h, by simp⟩⟩
  refine @forBelow_go Keyboard 8 m k (by omega)
    (fun i k ↦ k.put (b i)) Inv hinit fun i k' hi hk' ↦ ?_
  obtain ⟨hcount, hpending⟩ := hk'
  refine ⟨?_, fun hroom ↦ ?_⟩
  · have hsucc : k'.count + 1 = k.count + BitVec.ofNat 8 (i + 1) := by
      rw [hcount]
      bv_omega
    exact hsucc
  · obtain ⟨hok, hkeys⟩ := hpending (by omega)
    have hless : k'.count.toNat + 1 < 256 := by
      rw [hcount]
      bv_omega
    exact ⟨hok.put, by rw [pending_put hok hless, hkeys, prefixOf_succ, List.append_assoc]⟩

/-! ## Reading -/

theorem readKey_of_pos (h : 0 < k.count.toNat) :
    ∃ key k', k.readKey = some (key, k') ∧ k.pending = key :: k'.pending ∧ (k.Ok → k'.Ok) := by
  have hne : k.count ≠ 0 := fun hzero ↦ by simp [hzero] at h
  have hpred : k.count.toNat = (k.count - 1).toNat + 1 := by bv_omega
  refine ⟨_, _, by rw [readKey, if_neg hne], ?_, fun hok ↦ ?_⟩
  · rw [pending, hpred, prefixOf_cons, pending]
    congr 1
    · simp
    · refine prefixOf_congr fun i _ ↦ congrArg k.buffer ?_
      rw [BitVec.add_assoc, Nat.add_comm i 1, BitVec.ofNat_add]
      rfl
  · simp only [Ok] at *
    rw [hok]
    bv_omega

/-- A loop that takes keys until its counter gets to `m`, wherever it starts. -/
theorem readLoop (h : k.Ok) (dst : ℕ → Byte) {m : ℕ} (hm : m ≤ k.count.toNat) (i : Byte) :
    ∃ (j : Byte) (s : ReadState),
      forBelow m (fun _ (s : ReadState) ↦ s.body) i ⟨k, dst, 0⟩ = some (j, s) ∧
      j.toNat = max i.toNat m ∧ k.pending = prefixOf s.dst s.next ++ s.keyboard.pending ∧
      i.toNat + s.next = max i.toNat m ∧ s.keyboard.Ok := by
  let Inv (c : ℕ) (s : ReadState) : Prop :=
    k.pending = prefixOf s.dst s.next ++ s.keyboard.pending ∧ i.toNat + s.next = c ∧ s.keyboard.Ok
  have hcount := k.count.isLt
  refine @forBelow_rule ReadState 8 m (fun _ s ↦ s.body) i ⟨k, dst, 0⟩ (by omega) Inv
    ⟨by simp, rfl, h⟩
    fun c s _ hlt hs ↦ ?_
  obtain ⟨hpending, hnext, hok⟩ := hs
  have hlength := congrArg List.length hpending
  rw [List.length_append, length_pending, length_pending, length_prefixOf] at hlength
  obtain ⟨key, k', hkey, hrest, hok'⟩ := readKey_of_pos (k := s.keyboard) (by omega)
  refine ⟨_, by rw [ReadState.body, hkey], ?_, congrArg (· + 1) hnext, hok' hok⟩
  rw [prefixOf_update, List.append_assoc, List.singleton_append, ← hrest, hpending]

/-! ## The calls -/

inductive Call where
  | write (b : ℕ → Byte) (n : U64)
  | read (i : Byte) (b : ℕ → Byte) (n : U64)

/-- A call does what one of a queue of 256 keys does. -/
def Serves (k : Keyboard) : Call → Prop
  | .write b n => ∃ ret k', k.write b n = some (ret, k') ∧ ret =
      min n.toNat (256 - k.pending.length) ∧
      k'.pending = k.pending ++ prefixOf b ret
  | .read i dst n => ∃ ret s, k.read i dst n = some (ret, s) ∧ ret = min n.toNat k.pending.length ∧
      prefixOf s.dst ret = k.pending.take ret ∧ s.keyboard.pending = k.pending.drop ret

/-- The ring does not get full, and the counter of a read is zero, if there is something to read. -/
def Fits (k : Keyboard) : Call → Prop
  | .write _ n => k.count.toNat + n.toNat < 256
  | .read i _ n => i = 0 ∨ n = 0 ∨ k.count = 0

/-- What a write that fits does. -/
theorem write_of_fits (h : k.Ok) (hfits : k.count.toNat + n.toNat < 256) (b : ℕ → Byte) :
    ∃ k', k.write b n = some (n.toNat, k') ∧ k'.pending = k.pending ++ prefixOf b n.toNat ∧
      k'.Ok := by
  have hall : k.toWrite n = n.toNat := by
    rw [toWrite]
    omega
  rw [write, hall]
  by_cases hzero : n.toNat = 0
  · rw [if_pos hzero, hzero]
    exact ⟨k, rfl, by simp, h⟩
  · obtain ⟨j, k', hloop, -, hpending⟩ := putLoop h b (m := n.toNat) (by omega)
    obtain ⟨hok, hkeys⟩ := hpending hfits
    rw [if_neg hzero, hloop]
    exact ⟨k', rfl, hkeys, hok⟩

theorem serves_write (h : k.Ok) : k.Serves (.write b n) ↔ k.Fits (.write b n) := by
  rw [Serves, Fits, length_pending]
  constructor
  · rintro ⟨ret, k', hwrite, hret, hpending⟩
    by_contra hnot
    have hall : k.toWrite n = 256 - k.count.toNat := by
      rw [toWrite]
      omega
    have hcount := k.count.isLt
    rw [write, hall, if_neg (by omega)] at hwrite
    obtain hzero | hpos := Nat.eq_zero_or_pos k.count.toNat
    · rw [forBelow_eq_none (by omega) (fun _ ↦ True) trivial fun _ _ _ ↦
        ⟨_, rfl, trivial⟩] at hwrite
      cases hwrite
    · obtain ⟨j, k₁, hloop, hfull, -⟩ := putLoop h b (m := 256 - k.count.toNat) (by omega)
      rw [hloop] at hwrite
      obtain ⟨rfl, rfl⟩ : 256 - k.count.toNat = ret ∧ k₁ = k' := by simpa using hwrite
      have hlength := congrArg List.length hpending
      rw [length_pending, List.length_append, length_pending, length_prefixOf, hfull] at hlength
      bv_omega
  · intro hfits
    obtain ⟨k', hwrite, hpending, -⟩ := write_of_fits h hfits b
    exact ⟨n.toNat, k', hwrite, by omega, hpending⟩

/-- What a read that fits does. -/
theorem read_of_fits (h : k.Ok) (hfits : i = 0 ∨ n = 0 ∨ k.count = 0) (dst : ℕ → Byte) :
    ∃ s, k.read i dst n = some (k.toRead n, s) ∧ prefixOf s.dst (k.toRead n) =
      k.pending.take (k.toRead n) ∧
      s.keyboard.pending = k.pending.drop (k.toRead n) ∧ s.keyboard.Ok := by
  rw [read]
  by_cases hzero : k.toRead n = 0
  · rw [if_pos hzero, hzero]
    exact ⟨⟨k, dst, 0⟩, rfl, by simp, by simp, h⟩
  · have hi : i = 0 := hfits.resolve_right fun hnone ↦ hzero (by
      rw [toRead]
      obtain rfl | hcount := hnone
      · exact Nat.zero_min _
      · rw [hcount]
        exact Nat.min_zero _)
    obtain ⟨j, s, hloop, hj, hpending, hnext, hok⟩ :=
      readLoop h dst (m := k.toRead n) (Nat.min_le_right n.toNat _) i
    rw [hi] at hj hnext
    have hret : j.toNat = k.toRead n := hj.trans (Nat.zero_max _)
    have htaken : k.toRead n = (prefixOf s.dst s.next).length := by
      rw [length_prefixOf]
      exact ((Nat.zero_max _).symm.trans hnext.symm).trans (Nat.zero_add _)
    rw [if_neg hzero, hloop]
    refine ⟨s, by rw [← hret]; rfl, ?_, ?_, hok⟩
    · rw [hpending, htaken, List.take_left, length_prefixOf]
    · rw [hpending, htaken, List.drop_left]

theorem serves_read (h : k.Ok) : k.Serves (.read i dst n) ↔ k.Fits (.read i dst n) := by
  rw [Serves, Fits, length_pending]
  constructor
  · rintro ⟨ret, s, hread, hret, -, hrest⟩
    by_cases hzero : k.toRead n = 0
    · rw [toRead] at hzero
      obtain hn | hcount : n.toNat = 0 ∨ k.count.toNat = 0 := by omega
      · exact .inr (.inl (BitVec.toNat_eq.mpr hn))
      · exact .inr (.inr (BitVec.toNat_eq.mpr hcount))
    · obtain ⟨j, s₁, hloop, hj, hpending, hnext, -⟩ :=
        readLoop h dst (m := k.toRead n) (Nat.min_le_right n.toNat _) i
      rw [read, if_neg hzero, hloop] at hread
      obtain ⟨rfl, rfl⟩ : j.toNat = ret ∧ s₁ = s := by simpa using hread
      have hlength := congrArg List.length hpending
      rw [List.length_append, length_prefixOf, hrest, List.length_drop, length_pending] at hlength
      rw [toRead] at hzero hj hnext
      exact .inl (BitVec.toNat_eq.mpr (show i.toNat = 0 by omega))
  · intro hfits
    obtain ⟨s, hread, hbytes, hrest, -⟩ := read_of_fits h hfits dst
    exact ⟨_, s, hread, rfl, hbytes, hrest⟩

/-- **The calls that are a queue's** are those that fit. -/
theorem serves_iff (h : k.Ok) (call : Call) : k.Serves call ↔ k.Fits call := by
  cases call with
  | write b n => exact serves_write h
  | read i dst n => exact serves_read h

/-! ## The queue -/

/-- A keyboard, with the keys that it has accepted and returned. -/
structure Traffic where
  keyboard : Keyboard
  accepted : List Byte
  returned : List Byte

def Traffic.step (t : Traffic) : Call → Option Traffic
  | .write b n => (t.keyboard.write b n).map fun (ret, k) ↦
      { t with keyboard := k, accepted := t.accepted ++ prefixOf b ret }
  | .read i dst n => (t.keyboard.read i dst n).map fun (ret, s) ↦
      { t with keyboard := s.keyboard, returned := t.returned ++ prefixOf s.dst ret }

def trafficMachine : Machine Traffic Call where
  initial t := (∃ buffer, t.keyboard = new buffer) ∧ t.accepted = [] ∧ t.returned = []
  step := Traffic.step

theorem trafficMachine_step (t : Traffic) (call : Call) :
    trafficMachine.step t call = t.step call :=
  rfl

/-- A keyboard is a queue. -/
structure Traffic.Refines (t : Traffic) (q : BoundedQueue Byte 256) : Prop where
  pending : t.keyboard.pending = q.items
  accepted : t.accepted = q.accepted
  returned : t.returned = q.returned
  ok : t.keyboard.Ok

/-- The move of the queue. -/
def Call.onQueue (q : BoundedQueue Byte 256) : Call → BoundedQueue Byte 256
  | .write b n => q.write (prefixOf b n.toNat)
  | .read _ _ n => q.read n.toNat

variable {t t' : Traffic} {q : BoundedQueue Byte 256}

/-- **A call that fits is the queue's.** -/
theorem Traffic.Refines.step {call : Call} (h : t.Refines q) (hfits : t.keyboard.Fits call)
    (hs : t.step call = some t') : t'.Refines (call.onQueue q) := by
  have hlength := congrArg List.length h.pending
  rw [length_pending] at hlength
  cases call with
  | write b n =>
    obtain ⟨k', hwrite, hpending, hok⟩ := write_of_fits h.ok hfits b
    have htake : (prefixOf b n.toNat).take q.room = prefixOf b n.toNat := by
      rw [List.take_of_length_le]
      rw [length_prefixOf, BoundedQueue.room]
      have hless : t.keyboard.count.toNat + n.toNat < 256 := hfits
      omega
    rw [Traffic.step, hwrite, Option.map_some, Option.some.injEq] at hs
    subst hs
    refine ⟨?_, ?_, h.returned, hok⟩
    · simp only [Call.onQueue, BoundedQueue.write, htake, hpending, h.pending]
    · simp only [Call.onQueue, BoundedQueue.write, htake, h.accepted]
  | read i dst n =>
    obtain ⟨s, hread, hbytes, hrest, hok⟩ := read_of_fits h.ok hfits dst
    have hall : t.keyboard.toRead n = min n.toNat q.items.length := by rw [toRead, hlength]
    rw [Traffic.step, hread, Option.map_some, Option.some.injEq] at hs
    subst hs
    have hreturned : t.returned ++ prefixOf s.dst (t.keyboard.toRead n) =
        q.returned ++ q.items.take n.toNat := by
      rw [hbytes, hall, h.returned, h.pending, ← List.take_eq_take_min]
    refine ⟨?_, h.accepted, hreturned, hok⟩
    rw [hrest, hall, h.pending, ← List.drop_eq_drop_min]
    rfl

/-- Every run of calls that fit is a run of a queue. -/
theorem Traffic.exists_refines (h : trafficMachine.Reaches (fun t call ↦ t.keyboard.Fits call) t) :
    ∃ q, t.Refines q := by
  refine @Machine.Reaches.invariant _ _ _ _ _ (fun t ↦ ∃ q, t.Refines q) (fun t hinit ↦ ?_)
    (fun t call t' ih hP hs ↦ ?_) h
  · obtain ⟨⟨buffer, hnew⟩, haccepted, hreturned⟩ := hinit
    exact ⟨.empty Byte 256, by rw [hnew]; rfl, haccepted, hreturned, by rw [hnew]; rfl⟩
  · obtain ⟨q, hq⟩ := ih
    exact ⟨_, hq.step hP hs⟩

/-- **As long as the calls fit, the keyboard is a queue**: the keys that have come in are those
that have come out and those that are pending, in order, and a call does what a queue's does
just if it fits. -/
theorem Traffic.keys_of_fits (h : trafficMachine.Reaches (fun t call ↦ t.keyboard.Fits call) t) :
    t.accepted = t.returned ++ t.keyboard.pending ∧
      ∀ call, t.keyboard.Serves call ↔ t.keyboard.Fits call := by
  obtain ⟨q, hq⟩ := Traffic.exists_refines h
  refine ⟨?_, serves_iff hq.ok⟩
  rw [hq.accepted, hq.returned, hq.pending]
  exact q.conserved

/-- A new keyboard. -/
def Traffic.fresh : Traffic := ⟨new fun _ ↦ 0, [], []⟩

theorem Traffic.initial_fresh : trafficMachine.initial Traffic.fresh := ⟨⟨_, rfl⟩, rfl, rfl⟩

/-- The scan codes of a key. -/
def strokes (i : ℕ) : Byte := if i = 0 then 0x1E else 0x9E

theorem Traffic.keys_of_fits_strokes : ∃ t,
    trafficMachine.step Traffic.fresh (.write strokes 2) = some t ∧ t.accepted = [0x1E, 0x9E] ∧
      t.accepted = t.returned ++ t.keyboard.pending := by
  have hfits : Traffic.fresh.keyboard.Fits (.write strokes 2) := show 0 + 2 < 256 by decide
  have hinit : trafficMachine.Reaches (fun t call ↦ t.keyboard.Fits call) Traffic.fresh :=
    .initial Traffic.initial_fresh
  exact ⟨_, rfl, by decide, (Traffic.keys_of_fits (hinit.step hfits rfl)).1⟩

/-- A write of 256 keys to an empty ring does not end. -/
theorem Traffic.not_queue_full :
    ¬ ∀ t, trafficMachine.Reaches (fun _ _ ↦ True) t → ∀ call, t.keyboard.Serves call := by
  intro hall
  have hserves := hall Traffic.fresh (.initial Traffic.initial_fresh) (.write strokes 256)
  rw [serves_iff (by rfl)] at hserves
  exact absurd hserves (show ¬ 0 + 256 < 256 by decide)

end Keyboard

end Borrrdex
