import Borrrdex.Kstd.Strncpy
import Mathlib.Tactic

/-!
# The stack of a new process

`load_elf` pushes the strings of `argv` and `envp`, rounds the pointer down, leaves a word out if
their number is odd, and then pushes, word by word, what the program expects to find from its stack
pointer on: `argc`, the pointers to the arguments, a null, those to the environment, a null, and
the auxiliary entries.

Everything is placed by its depth below the stack pointer that the process was given
(`Lib.FlatMemory`).  `Holds` says what words have been pushed and that nothing above them has
changed; `pushStrings_spec` does the same for strings.

`create_elf_process` backs only the two highest pages of the stack, and a store below them ends in a
page fault inside the kernel.  So the stack also keeps where stores have gone (`Reaches`), and a new
process gets its stack just if everything fits into the two pages (`initial_stack_iff`).
-/

set_option autoImplicit false

namespace Borrrdex

open FlatMemory

/-- `elf_info_t`. -/
structure ElfInfo where
  entry : U64
  phdrSegment : U64
  phdrEntrySize : U64
  phdrNum : U64

/-- Whether the program names a dynamic linker, and what has become of `"/lib/ld.so"`. -/
inductive Linker
  | unnamed
  | invalid
  | loaded (info : ElfInfo)

/-- A stack pointer, `stack` or `stack_str`, the memory, and the ranges that have been stored to, by
their first byte and their length, the last one first. -/
structure Stack where
  ptr : U64
  mem : Mem
  stored : List (U64 × ℕ)

namespace Stack

/-- `len = strnlen(str, fs::NAME_MAX) + 1; stack_str -= len; strncpy(stack_str, src, len);`. -/
def pushString (s : Stack) (str src : U64) : Stack :=
  let len := strnlen s.mem str 255 + 1
  let ptr := s.ptr - BitVec.ofNat 64 len
  ⟨ptr, strncpy ptr src len s.mem, (ptr, len) :: s.stored⟩

/-- The loops over `argv` and `envp`, with `temp_argv` or `temp_envp`. -/
def pushStrings : List U64 → Stack → List U64 × Stack
  | [], s => ([], s)
  | str :: strs, s =>
    let s := s.pushString str str
    let (temp, rest) := pushStrings strs s
    (s.ptr :: temp, rest)

/-- `stack -= n` and the loop on `*(stack + i)`. -/
def pushAll (s : Stack) (vs : List U64) : Stack :=
  let ptr := s.ptr - BitVec.ofNat 64 (8 * vs.length)
  ⟨ptr, storeWords ptr vs s.mem, (ptr, 8 * vs.length) :: s.stored⟩

/-- `stack--; *stack = v;`. -/
def push (s : Stack) (v : U64) : Stack := s.pushAll [v]

/-- `*((auxv_t *)stack) = { .a_type = type, .a_val = val }`. -/
def pushAux (s : Stack) (type val : U64) : Stack := s.pushAll [type, val]

/-- `stack_str -= (uintptr_t)stack_str & 0xF`. -/
def align (s : Stack) : Stack := { s with ptr := s.ptr - (s.ptr &&& 0xF#64) }

/-- `stack -= n`. -/
def skip (s : Stack) (n : ℕ) : Stack := { s with ptr := s.ptr - BitVec.ofNat 64 (8 * n) }

end Stack

open Stack

/-- What `load_elf` does to the stack.  The lengths of `argv` and `envp` are `argc` and `envc`; a
null `envp` goes with none. -/
def pushArguments (info : ElfInfo) (argv envp : List U64) (execPath : U64) (s : Stack) : Stack :=
  let (tempArgv, s) := pushStrings argv s
  let (tempEnvp, s) := pushStrings envp s
  -- `exec_path_val` is still null when the string is copied
  let s := if execPath ≠ 0 then s.pushString execPath 0 else s
  let execPathVal := if execPath ≠ 0 then s.ptr else 0
  let s := s.align.skip ((argv.length + envp.length) % 2)
  let s := s.push 0
  let s := s.pushAux 3 info.phdrSegment
  let s := s.pushAux 4 info.phdrEntrySize
  let s := s.pushAux 5 info.phdrNum
  let s := s.pushAux 9 info.entry
  let s := if execPath ≠ 0 ∧ execPathVal ≠ 0 then s.pushAux 15 execPathVal else s
  let s := s.push 0
  let s := s.pushAll tempEnvp
  let s := s.push 0
  let s := s.pushAll tempArgv
  s.push (BitVec.ofNat 64 argv.length)

/-- `load_elf`, with what it returns. -/
def loadElf (info : ElfInfo) (linker : Linker) (argv envp : List U64) (execPath : U64) (s : Stack) :
    U64 × Stack :=
  match linker with
  | .invalid => (0, s)
  | .unnamed => (info.entry, pushArguments info argv envp execPath s)
  | .loaded linkerInfo => (linkerInfo.entry, pushArguments info argv envp execPath s)

/-- Whether a range lies in the two pages of the stack that `create_elf_process` has backed. -/
def stackBacked (base : U64) (range : U64 × ℕ) : Bool :=
  (range.1 - (base + 0x1fe000#64)).toNat + range.2 ≤ 0x2000

/-- `load_elf` on the stack of a new process, with the base of its region.  A store to another page
faults in the kernel; the handler looks the address up in the address space of the creator, and the
store is not made. -/
def loadElfOnStack (info : ElfInfo) (linker : Linker) (argv envp : List U64) (execPath base : U64)
    (m : Mem) : Except Halt (U64 × Stack) :=
  let r := loadElf info linker argv envp execPath ⟨base + 0x200000#64, m, []⟩
  if r.2.stored.all (stackBacked base) then .ok r else .error .pageFault

/-- `create_elf_process`, as far as its assertion. -/
def createElfProcess (verified : Bool) (info : ElfInfo) (linker : Linker) (argv envp : List U64)
    (execPath base : U64) (m : Mem) : Except Halt (Option Stack) :=
  if verified then do
    let (rip, s) ← loadElfOnStack info linker argv envp execPath base m
    if rip = 0 then .ok none
    else if s.ptr &&& 0xF#64 = 0 then .ok (some s)
    else .error .stackNotAligned
  else .ok none

/-! ## What a program expects -/

/-- The auxiliary entries: `AT_ENTRY`, `AT_PHNUM`, `AT_PHENT` and `AT_PHDR`. -/
def ElfInfo.auxv (info : ElfInfo) : List U64 :=
  [9, info.entry, 5, info.phdrNum, 4, info.phdrEntrySize, 3, info.phdrSegment]

/-- The words that lie at the stack pointer, by the ABI; `AT_NULL` comes last. -/
def initialWords (info : ElfInfo) (argv envp : List U64) : List U64 :=
  BitVec.ofNat 64 argv.length :: (argv ++ 0 :: (envp ++ 0 :: (info.auxv ++ [0])))

/-- A pointer to a string that does not overlap the `size` bytes from the stack pointer on.  It is
not null, unless the stack that began at `top` runs over address 0. -/
structure Points (top : U64) (s : Stack) (size : ℕ) (p : U64) (w : List Byte) : Prop where
  string : CString s.mem p w
  apart : ∀ i ≤ w.length, ∀ j < size, p + BitVec.ofNat 64 i ≠ s.ptr + BitVec.ofNat 64 j
  ne_null : s.ptr.toNat ≤ top.toNat → p ≠ 0

/-- **The stack of a new process**: at the stack pointer, which is aligned, are `argc`, pointers to
the arguments, a null, pointers to the environment, a null, and the auxiliary entries. -/
def Decodes (info : ElfInfo) (args env : List (List Byte)) (top : U64) (s : Stack) : Prop :=
  ∃ argv envp : List U64, Words s.mem s.ptr (initialWords info argv envp) ∧
    List.Forall₂ (Points top s (8 * (initialWords info argv envp).length)) argv args ∧
    List.Forall₂ (Points top s (8 * (initialWords info argv envp).length)) envp env ∧
    s.ptr.toNat % 16 = 0

/-- The bytes of some strings, with their nulls. -/
def stringsSize (ws : List (List Byte)) : ℕ := (ws.map fun w ↦ w.length + 1).sum

/-- The bytes that are written below the stack pointer, at most. -/
def stackSize (args env : List (List Byte)) : ℕ :=
  stringsSize args + stringsSize env + 15 + 8 * (13 + args.length + env.length)

/-- How far below the stack pointer the last word lies, if that is a multiple of 16. -/
def stackDepth (args env : List (List Byte)) : ℕ :=
  (stringsSize args + stringsSize env + 15) / 16 * 16 + 8 * ((args.length + env.length) % 2) +
    8 * (12 + args.length + env.length)

/-- A string of at most 255 bytes that the caller has elsewhere. -/
structure Given (m : Mem) (top : U64) (lo hi : ℕ) (p : U64) (w : List Byte) : Prop where
  string : CString m p w
  length : w.length ≤ 255
  outside : ∀ i ≤ w.length, ¬ (lo < depth top (p + BitVec.ofNat 64 i) ∧
    depth top (p + BitVec.ofNat 64 i) ≤ hi)

variable {info : ElfInfo} {m m₀ m' : Mem} {top p : U64} {w : List Byte} {ws : List (List Byte)}
  {strs vs : List U64} {s : Stack} {lo hi k : ℕ}

/-! ## Where stores go -/

/-- The stack pointer is at a depth, and no store has gone below it. -/
structure Reaches (top : U64) (k : ℕ) (s : Stack) : Prop where
  ptr : s.ptr = down top k
  stored : ∀ r ∈ s.stored, ∃ d, r.1 = down top d ∧ r.2 ≤ d ∧ d ≤ k

/-- A store below the pointer. -/
theorem Reaches.store (h : Reaches top k s) (n : ℕ) (m : Mem) :
    Reaches top (k + n)
      ⟨s.ptr - BitVec.ofNat 64 n, m, (s.ptr - BitVec.ofNat 64 n, n) :: s.stored⟩ := by
  have hptr : s.ptr - BitVec.ofNat 64 n = down top (k + n) := by rw [h.ptr, down_sub]
  refine ⟨hptr, List.forall_mem_cons.mpr ⟨⟨k + n, hptr, Nat.le_add_left n k, le_rfl⟩,
    fun r hr ↦ ?_⟩⟩
  obtain ⟨d, hd, hlen, hle⟩ := h.stored r hr
  exact ⟨d, hd, hlen, hle.trans (Nat.le_add_right k n)⟩

theorem Reaches.start (hs : s.stored = []) : Reaches s.ptr 0 s where
  ptr := (down_zero s.ptr).symm
  stored _ hr := absurd (hs ▸ hr) List.not_mem_nil

theorem Reaches.pushAll (h : Reaches top k s) (vs : List U64) :
    Reaches top (k + 8 * vs.length) (s.pushAll vs) := h.store _ _

/-- The pointer moves on without a store. -/
theorem Reaches.move (h : Reaches top k s) (n : ℕ) :
    Reaches top (k + n) { s with ptr := s.ptr - BitVec.ofNat 64 n } := by
  refine ⟨?_, fun r hr ↦ ?_⟩
  · rw [h.ptr, down_sub]
  · obtain ⟨d, hd, hlen, hle⟩ := h.stored r hr
    exact ⟨d, hd, hlen, hle.trans (Nat.le_add_right k n)⟩

/-- A range below the end of the stack is backed if it does not begin too far down. -/
theorem stackBacked_iff {base : U64} {d n : ℕ} (hn : n ≤ d) (hd : d < 2 ^ 64) :
    stackBacked base (down (base + 0x200000#64) d, n) = true ↔ d ≤ 0x2000 := by
  have hsub : down (base + 0x200000#64) d - (base + 0x1fe000#64) =
      0x2000#64 - BitVec.ofNat 64 d := by
    rw [down]
    bv_omega
  rw [stackBacked, decide_eq_true_eq, hsub, BitVec.toNat_sub, BitVec.toNat_ofNat,
    BitVec.toNat_ofNat]
  omega

/-- **When all stores are backed**: just if the last one is. -/
theorem Reaches.all_iff {base : U64} (h : Reaches (base + 0x200000#64) k s) (hk : k < 2 ^ 64)
    {n : ℕ} (hlast : (s.ptr, n) ∈ s.stored) (hn : n ≤ k) :
    s.stored.all (stackBacked base) = true ↔ k ≤ 0x2000 := by
  rw [List.all_eq_true]
  refine ⟨fun hall ↦ ?_, fun hle r hr ↦ ?_⟩
  · have hbacked := hall _ hlast
    rw [h.ptr] at hbacked
    exact (stackBacked_iff hn hk).mp hbacked
  · obtain ⟨d, hd, hlen, hdk⟩ := h.stored r hr
    have hrange : r = (down (base + 0x200000#64) d, r.2) := Prod.ext hd rfl
    rw [hrange]
    exact (stackBacked_iff hlen (by omega)).mpr (hdk.trans hle)

/-! ## Strings -/

/-- A string that has been pushed between two depths. -/
structure Pushed (top : U64) (lo hi : ℕ) (m : Mem) (p : U64) (w : List Byte) : Prop where
  string : CString m p w
  place : ∃ d, p = down top d ∧ lo + w.length < d ∧ d ≤ hi

theorem Pushed.mono {lo' hi' : ℕ} (h : Pushed top lo hi m p w) (hlo : lo' ≤ lo) (hhi : hi ≤ hi') :
    Pushed top lo' hi' m p w := by
  obtain ⟨hstring, d, hp, hlt, hle⟩ := h
  exact ⟨hstring, d, hp, by omega, by omega⟩

/-- What is written further down leaves it alone. -/
theorem Pushed.of_same (h : Pushed top lo hi m p w) (hhi : hi < 2 ^ 64) {lo' hi' : ℕ}
    (hsame : SameOutside top lo' hi' m m') (hle : hi ≤ lo') : Pushed top lo hi m' p w := by
  obtain ⟨hstring, d, rfl, hlt, hd⟩ := h
  refine ⟨hstring.congr fun i hi ↦ hsame _ ?_, d, rfl, hlt, hd⟩
  rw [depth_down_add (by omega) (by omega)]
  omega

theorem Given.of_same (h : Given m top lo hi p w) {lo' : ℕ} (hsame : SameOutside top lo lo' m m')
    (hle : lo ≤ lo') (hhi : lo' ≤ hi) : Given m' top lo' hi p w := by
  refine ⟨h.string.congr fun i hi ↦ hsame _ fun hin ↦ h.outside i hi ?_, h.length,
    fun i hi hin ↦ h.outside i hi ?_⟩ <;> omega

/-- **One string.** -/
theorem pushString_spec (hs : Reaches top k s) (h : Given s.mem top k hi p w)
    (hhi : k + (w.length + 1) ≤ hi) (hlt : hi < 2 ^ 64) :
    Reaches top (k + (w.length + 1)) (s.pushString p p) ∧
      SameOutside top k (k + (w.length + 1)) s.mem (s.pushString p p).mem ∧
      Pushed top k (k + (w.length + 1)) (s.pushString p p).mem (s.pushString p p).ptr w := by
  have hlen : strnlen s.mem p 255 = w.length := strnlen_eq h.string h.length
  have hptr : s.ptr - BitVec.ofNat 64 (w.length + 1) = down top (k + (w.length + 1)) := by
    rw [hs.ptr, down_sub]
  have hapart : Apart (down top (k + (w.length + 1))) p (w.length + 1) := fun j hj ↦ by
    by_contra hin
    obtain ⟨hlo, hhi'⟩ := (sub_down_lt_iff (by omega)).mp (Nat.not_le.mp hin)
    exact h.outside j (by omega) ⟨hlo, by omega⟩
  have hcopy : strncpy (down top (k + (w.length + 1))) p (w.length + 1) s.mem =
      copied (down top (k + (w.length + 1))) p (w.length + 1) s.mem :=
    strncpy_eq_copied hapart (by omega) fun i hi ↦ by
      rw [h.string.char i (by omega)]
      exact h.string.ne_zero _ (List.getElem_mem _)
  have hreaches : Reaches top (k + (w.length + 1)) (s.pushString p p) := by
    rw [pushString, hlen]
    exact hs.store _ _
  have hmem : (s.pushString p p).mem =
      copied (down top (k + (w.length + 1))) p (w.length + 1) s.mem := by
    rw [pushString, hlen]
    show strncpy (s.ptr - BitVec.ofNat 64 (w.length + 1)) p (w.length + 1) s.mem = _
    rw [hptr, hcopy]
  refine ⟨hreaches, hmem ▸ copied_same (by omega) p s.mem,
    ⟨?_, _, hreaches.ptr, by omega, le_rfl⟩⟩
  rw [hmem, hreaches.ptr]
  refine h.string.congr fun i hi' ↦ ?_
  have hoff : down top (k + (w.length + 1)) + BitVec.ofNat 64 i - down top (k + (w.length + 1)) =
      BitVec.ofNat 64 i := add_sub_cancel_left ..
  rw [copied, hoff, if_pos]
  rw [BitVec.toNat_ofNat]
  omega

/-- **The strings of `argv` or `envp`.** -/
theorem pushStrings_spec (hs : Reaches top k s) (h : List.Forall₂ (Given s.mem top k hi) strs ws)
    (hhi : k + stringsSize ws ≤ hi) (hlt : hi < 2 ^ 64) :
    Reaches top (k + stringsSize ws) (pushStrings strs s).2 ∧
      SameOutside top k (k + stringsSize ws) s.mem (pushStrings strs s).2.mem ∧
      List.Forall₂ (Pushed top k (k + stringsSize ws) (pushStrings strs s).2.mem)
        (pushStrings strs s).1 ws := by
  induction strs generalizing s k ws with
  | nil =>
    cases h
    exact ⟨hs, .refl top k s.mem, .nil⟩
  | cons p strs ih =>
    obtain _ | @⟨_, w, _, ws, hgiven, hrest⟩ := h
    have hsize : stringsSize (w :: ws) = w.length + 1 + stringsSize ws := by
      rw [stringsSize, List.map_cons, List.sum_cons, stringsSize]
    rw [hsize, ← Nat.add_assoc] at hhi ⊢
    obtain ⟨hreaches, hsame, hpushed⟩ := pushString_spec hs hgiven (by omega) hlt
    have hgiven' := hrest.imp fun p w hg ↦ hg.of_same hsame (by omega) (by omega)
    obtain ⟨hreaches', hsame', hpushed'⟩ := ih hreaches hgiven' hhi
    refine ⟨hreaches', hsame.trans hsame' (by omega) (by omega), .cons ?_ ?_⟩
    · exact (hpushed.of_same (by omega) hsame' le_rfl).mono le_rfl (by omega)
    · exact hpushed'.imp fun p w hw ↦ hw.mono (by omega) le_rfl

/-! ## Words -/

/-- The words that have been pushed from a depth on, the last one first. -/
structure Holds (top : U64) (k : ℕ) (m₀ : Mem) (vs : List U64) (s : Stack) : Prop where
  ptr : s.ptr = down top (k + 8 * vs.length)
  words : Words s.mem s.ptr vs
  same : SameOutside top k (k + 8 * vs.length) m₀ s.mem

theorem Holds.nil (hs : s.ptr = down top k) : Holds top k s.mem [] s where
  ptr := hs
  words _ hi := absurd hi (Nat.not_lt_zero _)
  same := .refl top k s.mem

theorem Holds.pushAll (h : Holds top k m₀ vs s) (us : List U64)
    (hlt : k + 8 * (us ++ vs).length < 2 ^ 64) : Holds top k m₀ (us ++ vs) (s.pushAll us) := by
  have hdepth : k + 8 * (us ++ vs).length = k + 8 * vs.length + 8 * us.length := by
    rw [List.length_append]
    omega
  rw [hdepth] at hlt
  have hptr : s.ptr - BitVec.ofNat 64 (8 * us.length) =
      down top (k + 8 * vs.length + 8 * us.length) := by rw [h.ptr, down_sub]
  have hsame : SameOutside top (k + 8 * vs.length) (k + 8 * vs.length + 8 * us.length) s.mem
      (storeWords (down top (k + 8 * vs.length + 8 * us.length)) us s.mem) :=
    storeWords_same hlt s.mem
  have heq : s.pushAll us = ⟨down top (k + 8 * vs.length + 8 * us.length),
      storeWords (down top (k + 8 * vs.length + 8 * us.length)) us s.mem,
      (down top (k + 8 * vs.length + 8 * us.length), 8 * us.length) :: s.stored⟩ := by
    rw [Stack.pushAll, hptr]
  rw [heq]
  refine ⟨congrArg (down top) hdepth.symm, (words_storeWords hlt s.mem).append ?_, ?_⟩
  · rw [down_add (by omega), Nat.add_sub_cancel]
    exact (h.ptr ▸ h.words).of_same hsame (by omega) (by omega) le_rfl
  · rw [hdepth]
    exact h.same.trans hsame (by omega) (by omega)

/-- A string that has been pushed before the words. -/
theorem Pushed.points (h : Pushed top lo hi m₀ p w) (hs : Holds top k m₀ vs s) (hle : hi ≤ k)
    (hpos : 0 < vs.length) (hlt : k + 8 * vs.length < 2 ^ 64) :
    Points top s (8 * vs.length) p w := by
  obtain ⟨hstring, d, rfl, hlo, hhi⟩ := h.of_same (by omega) hs.same hle
  refine ⟨hstring, fun i hi j hj heq ↦ ?_, fun hroom hnull ↦ ?_⟩
  · have hdepth := congrArg (depth top) heq
    rw [hs.ptr, depth_down_add (by omega) (by omega), depth_down_add (by omega) hlt] at hdepth
    omega
  · -- the stack pointer is still further below `top`
    rw [hs.ptr] at hroom
    have hle := le_of_down_le hlt hroom
    exact down_ne_zero (by omega) hnull

/-! ## Alignment -/

theorem toNat_and_15 (a : U64) : (a &&& 0xF#64).toNat = a.toNat % 16 := by
  rw [BitVec.toNat_and]
  exact Nat.and_two_pow_sub_one_eq_mod a.toNat 4

theorem align_eq (s : Stack) :
    s.align = { s with ptr := s.ptr - BitVec.ofNat 64 (s.ptr.toNat % 16) } := by
  rw [align, ← toNat_and_15, BitVec.ofNat_toNat, BitVec.setWidth_eq]

theorem align_ptr (s : Stack) : ∃ pad ≤ 15, s.align.ptr = s.ptr - BitVec.ofNat 64 pad ∧
    s.align.ptr.toNat % 16 = 0 := by
  refine ⟨s.ptr.toNat % 16, by omega, congrArg Stack.ptr (align_eq s), ?_⟩
  rw [align]
  dsimp only
  rw [BitVec.toNat_sub, toNat_and_15]
  omega

/-- What is left out to align a pointer at a depth below a multiple of 16. -/
theorem Reaches.align (h : Reaches top k s) (htop : top.toNat % 16 = 0) :
    Reaches top ((k + 15) / 16 * 16) s.align := by
  have hpad : k + s.ptr.toNat % 16 = (k + 15) / 16 * 16 := by
    rw [h.ptr, down, BitVec.toNat_sub, BitVec.toNat_ofNat]
    omega
  rw [← hpad, align_eq]
  exact h.move _

/-- Pairs of words keep the alignment. -/
theorem aligned_sub {a : U64} (h : a.toNat % 16 = 0) (q : ℕ) :
    (a - BitVec.ofNat 64 (16 * q)).toNat % 16 = 0 := by
  rw [BitVec.toNat_sub, BitVec.toNat_ofNat]
  omega

/-! ## The whole stack -/

theorem stringsSize_le (h : List.Forall₂ (Given m top lo hi) strs ws) :
    stringsSize ws ≤ 256 * ws.length := by
  induction h with
  | nil => exact le_rfl
  | cons hgiven _ ih =>
    have hlen := hgiven.length
    rw [stringsSize] at ih ⊢
    rw [List.map_cons, List.sum_cons, List.length_cons]
    omega

theorem length_initialWords (info : ElfInfo) (argv envp : List U64) :
    (initialWords info argv envp).length = 12 + argv.length + envp.length := by
  simp [initialWords, ElfInfo.auxv]
  omega

/-- **The words behind the strings**, if these end at a depth. -/
theorem holds_pushArguments (info : ElfInfo) {argv envp ps qs : List U64} {s₁ s₂ : Stack} {d : ℕ}
    (hr₁ : pushStrings argv s = (ps, s₁)) (hr₂ : pushStrings envp s₁ = (qs, s₂))
    (hptr : s₂.ptr = down top d) (hargc : ps.length = argv.length) (henvc : qs.length = envp.length)
    (hbound : d + 15 + 8 * (13 + argv.length + envp.length) < 2 ^ 64) :
    ∃ k, d ≤ k ∧ k + 8 * (12 + ps.length + qs.length) < 2 ^ 64 ∧
      Holds top k s₂.mem (initialWords info ps qs) (pushArguments info argv envp 0 s) ∧
      (pushArguments info argv envp 0 s).ptr.toNat % 16 = 0 := by
  obtain ⟨pad, hpad, hptr₃, haligned⟩ := align_ptr s₂
  -- where the words begin
  obtain ⟨k, hk⟩ : ∃ k, k = d + pad + 8 * ((argv.length + envp.length) % 2) := ⟨_, rfl⟩
  have hlen := length_initialWords info ps qs
  have hbound' : k + 8 * (12 + ps.length + qs.length) < 2 ^ 64 := by omega
  have hskip : (s₂.align.skip ((argv.length + envp.length) % 2)).ptr = down top k := by
    rw [skip]
    dsimp only
    rw [hptr₃, hptr, down_sub, down_sub, hk]
  have hholds : Holds top k s₂.mem (initialWords info ps qs)
      (pushArguments info argv envp 0 s) := by
    have h₀ : Holds top k s₂.mem [] (s₂.align.skip ((argv.length + envp.length) % 2)) :=
      .nil hskip
    have h₁ := (h₀.pushAll [0] (by simp; omega)).pushAll [3, info.phdrSegment]
      (by simp; omega)
    have h₂ := (h₁.pushAll [4, info.phdrEntrySize] (by simp; omega)).pushAll
      [5, info.phdrNum] (by simp; omega)
    have h₃ := (h₂.pushAll [9, info.entry] (by simp; omega)).pushAll [0]
      (by simp; omega)
    have h₄ := (h₃.pushAll qs (by simp; omega)).pushAll [0] (by simp; omega)
    have h₅ := (h₄.pushAll ps (by simp; omega)).pushAll
      [BitVec.ofNat 64 argv.length] (by simp; omega)
    rw [pushArguments, hr₁]
    dsimp only
    rw [hr₂]
    simp only [ne_eq, not_true_eq_false, if_false, false_and]
    rw [initialWords, hargc]
    exact h₅
  refine ⟨k, by omega, hbound', hholds, ?_⟩
  obtain ⟨q, hq⟩ : ∃ q, 8 * ((argv.length + envp.length) % 2) + 8 * (12 + ps.length + qs.length) =
    16 * q := ⟨((argv.length + envp.length) % 2 + 12 + ps.length + qs.length) / 2, by omega⟩
  have hdown : (pushArguments info argv envp 0 s).ptr =
    s₂.align.ptr - BitVec.ofNat 64 (16 * q) := by
    rw [hholds.ptr, hlen, ← hq, hk, hptr₃, hptr, down_sub, down_sub, Nat.add_assoc]
  rw [hdown]
  exact aligned_sub haligned q

/-- How far down the words behind the strings go. -/
theorem reaches_pushArguments (info : ElfInfo) {argv envp ps qs : List U64} {s₁ s₂ : Stack} {d : ℕ}
    (hr₁ : pushStrings argv s = (ps, s₁)) (hr₂ : pushStrings envp s₁ = (qs, s₂))
    (h : Reaches top d s₂) (htop : top.toNat % 16 = 0) :
    Reaches top ((d + 15) / 16 * 16 + 8 * ((argv.length + envp.length) % 2) +
        8 * (12 + ps.length + qs.length)) (pushArguments info argv envp 0 s) ∧
      ((pushArguments info argv envp 0 s).ptr, 8) ∈ (pushArguments info argv envp 0 s).stored := by
  have hskip := (h.align htop).move (8 * ((argv.length + envp.length) % 2))
  have haux := ((((hskip.pushAll [0]).pushAll [3, info.phdrSegment]).pushAll
    [4, info.phdrEntrySize]).pushAll [5, info.phdrNum]).pushAll [9, info.entry]
  have hall := ((((haux.pushAll [0]).pushAll qs).pushAll [0]).pushAll ps).pushAll
    [BitVec.ofNat 64 argv.length]
  rw [pushArguments, hr₁]
  dsimp only
  rw [hr₂]
  simp only [ne_eq, not_true_eq_false, if_false, false_and]
  refine ⟨?_, List.mem_cons_self ..⟩
  simp only [List.length_cons, List.length_nil, Nat.zero_add, Nat.mul_one] at hall
  have hdepth : ∀ n, n + 8 * (12 + ps.length + qs.length) = n + 8 + 8 * 2 + 8 * 2 + 8 * 2 + 8 * 2 +
      8 + 8 * qs.length + 8 + 8 * ps.length + 8 := by omega
  rw [hdepth]
  exact hall

/-- **`load_elf` leaves a stack that decodes**, and how far down it goes. -/
theorem decodes_pushArguments (info : ElfInfo) {argv envp : List U64} {args env : List (List Byte)}
    (hs : s.stored = []) (hargv : List.Forall₂ (Given s.mem s.ptr 0 (stackSize args env)) argv args)
    (henvp : List.Forall₂ (Given s.mem s.ptr 0 (stackSize args env)) envp env)
    (hlt : stackSize args env < 2 ^ 64) :
    Decodes info args env s.ptr (pushArguments info argv envp 0 s) ∧
      (s.ptr.toNat % 16 = 0 → Reaches s.ptr (stackDepth args env)
        (pushArguments info argv envp 0 s) ∧
      ((pushArguments info argv envp 0 s).ptr, 8) ∈
        (pushArguments info argv envp 0 s).stored) := by
  have hsize : stackSize args env =
    stringsSize args + stringsSize env + 15 + 8 * (13 + args.length + env.length) := rfl
  generalize stackSize args env = size at *
  have hspec₁ := pushStrings_spec (.start hs) hargv (by omega) hlt
  rcases hr₁ : pushStrings argv s with ⟨ps, s₁⟩
  rw [hr₁, Nat.zero_add] at hspec₁
  obtain ⟨hptr₁, hsame₁, hpushed₁⟩ := hspec₁
  have henvp' := henvp.imp fun p w hg ↦ hg.of_same hsame₁ (Nat.zero_le _) (by omega)
  have hspec₂ := pushStrings_spec hptr₁ henvp' (by omega) hlt
  rcases hr₂ : pushStrings envp s₁ with ⟨qs, s₂⟩
  rw [hr₂] at hspec₂
  obtain ⟨hptr₂, hsame₂, hpushed₂⟩ := hspec₂
  have hps : ps.length = args.length := hpushed₁.length_eq
  have hqs : qs.length = env.length := hpushed₂.length_eq
  have hargc : ps.length = argv.length := hps.trans hargv.length_eq.symm
  have henvc : qs.length = envp.length := hqs.trans henvp.length_eq.symm
  obtain ⟨k, hk, hbound, hholds, haligned⟩ :=
    holds_pushArguments info hr₁ hr₂ hptr₂.ptr hargc henvc (by omega)
  have hlen := length_initialWords info ps qs
  have hargs := hpushed₁.imp fun p w hw ↦
    (hw.of_same (by omega) hsame₂ le_rfl).points hholds (by omega) (by omega) (by omega)
  have henv := hpushed₂.imp fun p w hw ↦ hw.points hholds (by omega) (by omega) (by omega)
  refine ⟨⟨ps, qs, hholds.words, hargs, henv, haligned⟩, fun htop ↦ ?_⟩
  have hreaches := reaches_pushArguments info hr₁ hr₂ hptr₂ htop
  rwa [← hargc, ← henvc, hps, hqs, ← stackDepth] at hreaches

theorem stackSize_lt {args env : List (List Byte)} {argv envp : List U64} {size : ℕ}
    (hint : args.length + env.length < 2 ^ 31)
    (hargv : List.Forall₂ (Given m top lo size) argv args)
    (henvp : List.Forall₂ (Given m top lo size) envp env) : stackSize args env < 2 ^ 64 := by
  have hargs := stringsSize_le hargv
  have henv := stringsSize_le henvp
  rw [stackSize]
  omega

/-- **A new process gets its stack**: no store of `load_elf` misses the pages that are there, what
it leaves decodes, and `create_elf_process` returns, its assertion included. -/
structure InitialStack (info : ElfInfo) (linker : Linker) (argv envp : List U64)
    (args env : List (List Byte)) (base : U64) (m : Mem) : Prop where
  decodes : linker ≠ .invalid → ∃ rip s, loadElfOnStack info linker argv envp 0 base m =
    .ok (rip, s) ∧ Decodes info args env (base + 0x200000#64) s
  returns : ∀ verified, ∃ r, createElfProcess verified info linker argv envp 0 base m = .ok r

/-- **When a new process gets its stack**, for all arguments and environments of strings that lie
outside of what is written: exactly if the strings and the words behind them take no more than two
pages, or nothing is written since the dynamic linker is not valid.  `argc + envc` is an `int`, and
the region of the stack begins at a page. -/
theorem initial_stack_iff (info : ElfInfo) (linker : Linker) (argv envp : List U64)
    {args env : List (List Byte)} (hint : args.length + env.length < 2 ^ 31) {base : U64} {m : Mem}
    (hbase : base.toNat % 4096 = 0)
    (hargv : List.Forall₂ (Given m (base + 0x200000#64) 0 (stackSize args env)) argv args)
    (henvp : List.Forall₂ (Given m (base + 0x200000#64) 0 (stackSize args env)) envp env) :
    InitialStack info linker argv envp args env base m ↔
      linker = .invalid ∨ stackDepth args env ≤ 0x2000 := by
  by_cases hlinker : linker = .invalid
  · subst hlinker
    refine iff_of_true ⟨fun h ↦ absurd rfl h, fun verified ↦ ⟨none, ?_⟩⟩ (.inl rfl)
    cases verified <;> rfl
  rw [or_iff_right hlinker]
  have hlt := stackSize_lt hint hargv henvp
  have htop : (base + 0x200000#64).toNat % 16 = 0 := by
    rw [BitVec.toNat_add, BitVec.toNat_ofNat]
    omega
  have hdepth : 8 ≤ stackDepth args env ∧ stackDepth args env < 2 ^ 64 := by
    rw [stackSize] at hlt
    rw [stackDepth]
    omega
  have hstack : (loadElf info linker argv envp 0 ⟨base + 0x200000#64, m, []⟩).2 =
      pushArguments info argv envp 0 ⟨base + 0x200000#64, m, []⟩ := by
    cases linker with
    | unnamed => rfl
    | invalid => exact absurd rfl hlinker
    | loaded => rfl
  obtain ⟨hdecodes, hspec⟩ := decodes_pushArguments (s := ⟨base + 0x200000#64, m, []⟩) info rfl
    hargv henvp hlt
  obtain ⟨hreaches, hlast⟩ := hspec htop
  rw [← hstack] at hdecodes hreaches hlast
  rw [← hreaches.all_iff hdepth.2 hlast hdepth.1]
  constructor
  · intro h
    obtain ⟨rip, s, hload, -⟩ := h.decodes hlinker
    by_contra hfault
    have herror : loadElfOnStack info linker argv envp 0 base m = .error .pageFault :=
      if_neg hfault
    rw [herror] at hload
    cases hload
  · intro hall
    have hload : loadElfOnStack info linker argv envp 0 base m =
        .ok (loadElf info linker argv envp 0 ⟨base + 0x200000#64, m, []⟩) := if_pos hall
    refine ⟨fun _ ↦ ⟨_, _, hload, hdecodes⟩, fun verified ↦ ?_⟩
    rw [createElfProcess, hload]
    obtain ⟨_, _, -, -, -, haligned⟩ := hdecodes
    have hmask : (loadElf info linker argv envp 0 ⟨base + 0x200000#64, m, []⟩).2.ptr &&& 0xF#64 =
        0 := BitVec.eq_of_toNat_eq ((toNat_and_15 _).trans haligned)
    simp only [Except.bind, bind, hmask, if_true]
    split
    · split
      · exact ⟨none, rfl⟩
      · exact ⟨some _, rfl⟩
    · exact ⟨none, rfl⟩

/-- The strings that the first process is given, "init" and "PATH=/initrd", in the kernel. -/
def initStrings : Mem := fun a ↦
  ([0x69, 0x6e, 0x69, 0x74, 0, 0x50, 0x41, 0x54, 0x48, 0x3d, 0x2f, 0x69, 0x6e, 0x69, 0x74, 0x72,
    0x64, 0] : List Byte).getD (a - 0xFFFFFFFF80100000#64).toNat 0

/-- The first process gets its stack. -/
theorem initial_stack_iff_init : InitialStack ⟨0x400000#64, 0x40#64, 56#64, 4#64⟩ .unnamed
    [0xFFFFFFFF80100000#64] [0xFFFFFFFF80100005#64] [[0x69, 0x6e, 0x69, 0x74]]
    [[0x50, 0x41, 0x54, 0x48, 0x3d, 0x2f, 0x69, 0x6e, 0x69, 0x74, 0x72, 0x64]] 0x1000#64
    initStrings :=
  (initial_stack_iff _ _ _ _ (by decide) (by decide)
    (.cons ⟨⟨by decide, by decide, by decide⟩, by decide, by decide⟩ .nil)
    (.cons ⟨⟨by decide, by decide, by decide⟩, by decide, by decide⟩ .nil)).mpr
    (.inr (by decide))

/-- A thousand arguments do not get into the two pages. -/
theorem not_initialStack_thousand : ¬ InitialStack ⟨0x400000#64, 0x40#64, 56#64, 4#64⟩ .unnamed
    (List.replicate 1000 0xFFFFFFFF80100000#64) [] (List.replicate 1000 [0x69, 0x6e, 0x69, 0x74]) []
    0x1000#64 initStrings := by
  have hstrings : stringsSize (List.replicate 1000 [0x69, 0x6e, 0x69, 0x74]) = 5000 := by
    rw [stringsSize, List.map_replicate, List.sum_replicate]
    rfl
  have hsize : stackSize (List.replicate 1000 [0x69, 0x6e, 0x69, 0x74]) [] = 13119 := by
    rw [stackSize, hstrings, List.length_replicate]
    rfl
  have hdepth : stackDepth (List.replicate 1000 [0x69, 0x6e, 0x69, 0x74]) [] = 13104 := by
    rw [stackDepth, hstrings, List.length_replicate]
    rfl
  have hgiven : Given initStrings (0x1000#64 + 0x200000#64) 0 13119 0xFFFFFFFF80100000#64
      [0x69, 0x6e, 0x69, 0x74] := ⟨⟨by decide, by decide, by decide⟩, by decide, by decide⟩
  have hargv : ∀ n, List.Forall₂ (Given initStrings (0x1000#64 + 0x200000#64) 0 13119)
      (List.replicate n 0xFFFFFFFF80100000#64) (List.replicate n [0x69, 0x6e, 0x69, 0x74]) := by
    intro n
    induction n with
    | zero => exact .nil
    | succ n ih => exact .cons hgiven ih
  have hint : (List.replicate 1000 [(0x69 : Byte), 0x6e, 0x69, 0x74]).length +
      ([] : List (List Byte)).length < 2 ^ 31 := by
    rw [List.length_replicate]
    decide
  rw [initial_stack_iff _ _ _ _ hint (by decide) (hsize ▸ hargv 1000) .nil, hdepth]
  rintro (hlinker | hle)
  · cases hlinker
  · exact absurd hle (by decide)

end Borrrdex
