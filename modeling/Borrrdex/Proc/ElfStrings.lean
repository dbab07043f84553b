import Mathlib.Data.List.GetD
import Borrrdex.Proc.ElfStack

/-!
# The strings on the stack of a new process

`load_elf` reserves at most 256 bytes for a string, by `strnlen(str, fs::NAME_MAX) + 1`, and copies
as many with `strncpy`: of a longer string the first 256 bytes, and no null.  The path of the
program is copied from `exec_path_val`, which is still null.

`keepsStrings_iff` says that the strings are kept just if there is no path and no string is longer
than `fs::NAME_MAX`.
-/

set_option autoImplicit false

namespace Borrrdex

open FlatMemory Stack

/-- The pointers through which `load_elf` reads: `strnlen` of a string, and `strncpy` of
its source. -/
def loadElfReads (linker : Linker) (argv envp : List U64) (execPath : U64) : List U64 :=
  match linker with
  | .invalid => []
  | _ =>
    (argv.flatMap fun str ↦ [str, str]) ++ (envp.flatMap fun str ↦ [str, str]) ++
      if execPath ≠ 0 then [execPath, 0] else []

/-- The words at the stack pointer, with `AT_EXECPATH` or without. -/
def stackWords (info : ElfInfo) (argv envp : List U64) (execPathVal : Option U64) : List U64 :=
  BitVec.ofNat 64 argv.length :: (argv ++ 0 :: (envp ++ 0 ::
    ((match execPathVal with
      | none => []
      | some p => [15, p]) ++ (info.auxv ++ [0]))))

/-- **The strings are kept**: each pointer is to a string that the given one begins with, and its
null is before the string that lies above it, or the end of the stack. -/
def Kept (m : Mem) : U64 → List U64 → List (List Byte) → Prop
  | _, [], [] => True
  | above, p :: ps, w :: ws =>
    (∃ w', w' <+: w ∧ CString m p w' ∧ w'.length < (above - p).toNat) ∧ Kept m p ps ws
  | _, _, _ => False

/-- A string that the caller has elsewhere, of any length. -/
structure GivenString (m : Mem) (top : U64) (lo hi : ℕ) (p : U64) (w : List Byte) : Prop where
  string : CString m p w
  ne_null : p ≠ 0
  outside : ∀ i ≤ w.length, ¬ (lo < depth top (p + BitVec.ofNat 64 i) ∧
    depth top (p + BitVec.ofNat 64 i) ≤ hi)

/-- The path is a string, if there is one. -/
def GivenPath (m : Mem) (execPath : U64) : Option (List Byte) → Prop
  | none => execPath = 0
  | some w => execPath ≠ 0 ∧ CString m execPath w

/-- **`load_elf` keeps the strings** that it is given, and reads them only. -/
structure KeepsStrings (info : ElfInfo) (linker : Linker) (argv envp : List U64) (execPath : U64)
    (args env : List (List Byte)) (path : Option (List Byte)) (s : Stack) : Prop where
  strings : linker ≠ .invalid → ∃ (ps qs : List U64) (pathVal : Option U64),
    ps.length = argv.length ∧ qs.length = envp.length ∧ pathVal.isSome = path.isSome ∧
      Words (loadElf info linker argv envp execPath s).2.mem
        (loadElf info linker argv envp execPath s).2.ptr (stackWords info ps qs pathVal) ∧
      Kept (loadElf info linker argv envp execPath s).2.mem s.ptr (ps ++ qs ++ pathVal.toList)
        (args ++ env ++ path.toList)
  reads : ∀ p ∈ loadElfReads linker argv envp execPath, p ∈ argv ++ envp ++ [execPath]

/-- The bytes that are reserved for a string. -/
def reserved (w : List Byte) : ℕ := min w.length 255 + 1

/-- The bytes that are reserved for some strings. -/
def reservedSize (ws : List (List Byte)) : ℕ := (ws.map reserved).sum

/-- The bytes that are written below the stack pointer, at most. -/
def stackRoom (args env : List (List Byte)) (path : Option (List Byte)) : ℕ :=
  reservedSize (args ++ env ++ path.toList) + 15 + 8 * (15 + args.length + env.length)

variable {m m' : Mem} {top p : U64} {w : List Byte} {ws : List (List Byte)} {strs ps qs : List U64}
  {s : Stack} {lo hi k : ℕ}

/-! ## A string -/

/-- What is reserved for a string holds so much of it. -/
def CopyOf (m : Mem) (p : U64) (w : List Byte) : Prop :=
  ∀ i < reserved w, m (p + BitVec.ofNat 64 i) = w.getD i 0

/-- **One string.** -/
theorem pushString_copy (hs : s.ptr = down top k) (h : GivenString s.mem top k hi p w)
    (hhi : k + reserved w ≤ hi) (hlt : hi < 2 ^ 64) :
    (s.pushString p p).ptr = down top (k + reserved w) ∧
      SameOutside top k (k + reserved w) s.mem (s.pushString p p).mem ∧
      CopyOf (s.pushString p p).mem (s.pushString p p).ptr w := by
  have hlen : strnlen s.mem p 255 + 1 = reserved w := by rw [strnlen_eq_min h.string, reserved]
  have hle : reserved w ≤ w.length + 1 := by
    rw [reserved]
    omega
  have hptr : s.ptr - BitVec.ofNat 64 (reserved w) = down top (k + reserved w) := by
    rw [hs, down_sub]
  have hapart : Apart (down top (k + reserved w)) p (reserved w) := fun j hj ↦ by
    by_contra hin
    obtain ⟨hlo, hhi'⟩ := (sub_down_lt_iff (by omega)).mp (Nat.not_le.mp hin)
    exact h.outside j (by omega) ⟨hlo, by omega⟩
  have hcopy : strncpy (down top (k + reserved w)) p (reserved w) s.mem =
      copied (down top (k + reserved w)) p (reserved w) s.mem :=
    strncpy_eq_copied hapart (by omega) fun i hi ↦ by
      rw [h.string.char i (by omega)]
      exact h.string.ne_zero _ (List.getElem_mem _)
  have heq : s.pushString p p = ⟨down top (k + reserved w),
      copied (down top (k + reserved w)) p (reserved w) s.mem,
      (down top (k + reserved w), reserved w) :: s.stored⟩ := by
    rw [pushString, hlen, hptr, hcopy]
  rw [heq]
  refine ⟨rfl, copied_same (by omega) p s.mem, fun i hi' ↦ ?_⟩
  have hoff : down top (k + reserved w) + BitVec.ofNat 64 i - down top (k + reserved w) =
      BitVec.ofNat 64 i := add_sub_cancel_left ..
  dsimp only
  rw [copied, hoff, if_pos (by rw [BitVec.toNat_ofNat]; omega)]
  rcases Nat.lt_or_ge i w.length with hchar | hnull
  · rw [h.string.char i hchar, List.getD_eq_getElem _ _ hchar]
  · obtain rfl : i = w.length := by omega
    rw [h.string.null, List.getD_eq_default _ _ le_rfl]

theorem CopyOf.of_same (h : CopyOf m (down top k) w) (hk : k < 2 ^ 64) {lo' hi' : ℕ}
    (hsame : SameOutside top lo' hi' m m') (hle : k ≤ lo') (hw : reserved w ≤ k) :
    CopyOf m' (down top k) w := by
  intro i hi
  rw [hsame _ ?_, h i hi]
  rw [depth_down_add (by omega) hk]
  omega

/-- **What is reserved holds a string just if the given string is not too long.** -/
theorem exists_prefix_iff (hcopy : CopyOf m p w) (hne : ∀ c ∈ w, c ≠ 0) :
    (∃ w', w' <+: w ∧ CString m p w' ∧ w'.length < reserved w) ↔ w.length ≤ 255 := by
  refine ⟨?_, fun hlen ↦ ?_⟩
  · rintro ⟨w', -, hstring, hlt⟩
    by_contra hlong
    -- the bytes that are reserved are taken by the beginning of the string
    have hlt' : w'.length < w.length := by
      rw [reserved] at hlt
      omega
    have hbyte := hcopy w'.length hlt
    rw [hstring.null, List.getD_eq_getElem _ _ hlt'] at hbyte
    exact hne _ (List.getElem_mem _) hbyte.symm
  · have hsize : reserved w = w.length + 1 := by
      rw [reserved]
      omega
    refine ⟨w, List.prefix_refl w, ⟨fun i hi ↦ ?_, ?_, hne⟩, by omega⟩
    · rw [hcopy i (by omega), List.getD_eq_getElem _ _ hi]
    · rw [hcopy w.length (by omega), List.getD_eq_default _ _ le_rfl]

/-! ## The strings -/

/-- The strings lie below one another, from a depth on. -/
def Placed (top : U64) (m : Mem) : ℕ → List U64 → List (List Byte) → Prop
  | _, [], [] => True
  | k, p :: ps, w :: ws =>
    p = down top (k + reserved w) ∧ CopyOf m p w ∧ Placed top m (k + reserved w) ps ws
  | _, _, _ => False

theorem reservedSize_cons (w : List Byte) (ws : List (List Byte)) :
    reservedSize (w :: ws) = reserved w + reservedSize ws := by
  rw [reservedSize, List.map_cons, List.sum_cons, reservedSize]

theorem reservedSize_append (ws ws' : List (List Byte)) :
    reservedSize (ws ++ ws') = reservedSize ws + reservedSize ws' := by
  rw [reservedSize, List.map_append, List.sum_append, reservedSize, reservedSize]

theorem reservedSize_le (ws : List (List Byte)) : reservedSize ws ≤ 256 * ws.length := by
  induction ws with
  | nil => exact le_rfl
  | cons w ws ih =>
    have hle : reserved w ≤ 256 := by
      rw [reserved]
      omega
    rw [reservedSize_cons, List.length_cons]
    omega

theorem Placed.of_same (h : Placed top m k ps ws) (hlt : k + reservedSize ws < 2 ^ 64) {lo' hi' : ℕ}
    (hsame : SameOutside top lo' hi' m m') (hle : k + reservedSize ws ≤ lo') :
    Placed top m' k ps ws := by
  induction ws generalizing k ps with
  | nil =>
    cases ps with
    | nil => trivial
    | cons p ps => exact h
  | cons w ws ih =>
    cases ps with
    | nil => exact h
    | cons p ps =>
      obtain ⟨rfl, hcopy, hrest⟩ := h
      rw [reservedSize_cons, ← Nat.add_assoc] at hlt hle
      exact ⟨rfl, hcopy.of_same (by omega) hsame (by omega) (by omega), ih hrest hlt hle⟩

theorem Placed.append {ws' : List (List Byte)} (h : Placed top m k ps ws)
    (h' : Placed top m (k + reservedSize ws) qs ws') : Placed top m k (ps ++ qs) (ws ++ ws') := by
  induction ws generalizing k ps with
  | nil =>
    cases ps with
    | nil => exact h'
    | cons p ps => exact h.elim
  | cons w ws ih =>
    cases ps with
    | nil => exact h.elim
    | cons p ps =>
      obtain ⟨hp, hcopy, hrest⟩ := h
      rw [reservedSize_cons, ← Nat.add_assoc] at h'
      exact ⟨hp, hcopy, ih hrest h'⟩

theorem Placed.length_eq (h : Placed top m k ps ws) : ps.length = ws.length := by
  induction ws generalizing k ps with
  | nil =>
    cases ps with
    | nil => rfl
    | cons p ps => exact h.elim
  | cons w ws ih =>
    cases ps with
    | nil => exact h.elim
    | cons p ps => rw [List.length_cons, List.length_cons, ih h.2.2]

/-- **The strings of `argv` or `envp`.** -/
theorem pushStrings_placed (hs : s.ptr = down top k)
    (h : List.Forall₂ (GivenString s.mem top k hi) strs ws) (hhi : k + reservedSize ws ≤ hi)
    (hlt : hi < 2 ^ 64) :
    (pushStrings strs s).2.ptr = down top (k + reservedSize ws) ∧
      SameOutside top k (k + reservedSize ws) s.mem (pushStrings strs s).2.mem ∧
      Placed top (pushStrings strs s).2.mem k (pushStrings strs s).1 ws := by
  induction strs generalizing s k ws with
  | nil =>
    cases h
    exact ⟨hs, .refl top k s.mem, trivial⟩
  | cons p strs ih =>
    obtain _ | @⟨_, w, _, ws, hgiven, hrest⟩ := h
    rw [reservedSize_cons, ← Nat.add_assoc] at hhi ⊢
    obtain ⟨hptr, hsame, hcopy⟩ := pushString_copy hs hgiven (by omega) hlt
    have hgiven' : List.Forall₂ (GivenString (s.pushString p p).mem top (k + reserved w) hi)
      strs ws :=
      hrest.imp fun p w hg ↦ ⟨hg.string.congr fun i hi ↦ hsame _ fun hin ↦
        hg.outside i hi ⟨hin.1, by omega⟩, hg.ne_null, fun i hi hin ↦
          hg.outside i hi ⟨by omega, hin.2⟩⟩
    obtain ⟨hptr', hsame', hplaced⟩ := ih hptr hgiven' hhi
    refine ⟨hptr', hsame.trans hsame' (by omega) (by omega), ?_⟩
    have hptrs : (pushStrings (p :: strs) s).1 =
        (s.pushString p p).ptr :: (pushStrings strs (s.pushString p p)).1 := rfl
    rw [hptrs, hptr]
    rw [hptr] at hcopy
    exact ⟨rfl, hcopy.of_same (by omega) hsame' le_rfl (by omega), hplaced⟩

/-- **The strings are kept just if none is too long.** -/
theorem kept_iff_of_placed (h : Placed top m k ps ws) (hlt : k + reservedSize ws < 2 ^ 64)
    (hne : ∀ w ∈ ws, ∀ c ∈ w, c ≠ 0) : Kept m (down top k) ps ws ↔ ∀ w ∈ ws, w.length ≤ 255 := by
  induction ws generalizing k ps with
  | nil =>
    cases ps with
    | nil => exact ⟨fun _ w hw ↦ absurd hw List.not_mem_nil, fun _ ↦ trivial⟩
    | cons p ps => exact h.elim
  | cons w ws ih =>
    cases ps with
    | nil => exact h.elim
    | cons p ps =>
      obtain ⟨rfl, hcopy, hrest⟩ := h
      rw [reservedSize_cons, ← Nat.add_assoc] at hlt
      have hsize : (down top k - down top (k + reserved w)).toNat = reserved w := by
        have hdown : down top (k + reserved w) = down (down top k) (reserved w) :=
          (down_sub top k (reserved w)).symm
        rw [hdown]
        exact depth_down (by omega)
      rw [Kept, hsize, exists_prefix_iff hcopy (hne w (List.mem_cons_self ..)),
        List.forall_mem_cons,
        ih hrest hlt fun w' hw' ↦ hne w' (List.mem_cons_of_mem _ hw')]

/-! ## The stack -/

theorem words_unique {a : U64} {us vs : List U64} (h : Words m a us) (h' : Words m a vs)
    (hlen : us.length = vs.length) : us = vs :=
  List.ext_getElem hlen fun i hi hi' ↦ (h i hi).symm.trans (h' i hi')

theorem initialWords_inj {info : ElfInfo} {ps' qs' : List U64} (hps : ps.length = ps'.length)
    (h : initialWords info ps qs = initialWords info ps' qs') (hqs : qs.length = qs'.length) :
    ps = ps' ∧ qs = qs' := by
  rw [initialWords, initialWords] at h
  obtain ⟨hargv, hrest⟩ := List.append_inj (List.cons.inj h).2 hps
  exact ⟨hargv, (List.append_inj (List.cons.inj hrest).2 hqs).1⟩

theorem forall₂_ne_zero (h : List.Forall₂ (GivenString m top lo hi) strs ws) :
    (∀ p ∈ strs, p ≠ 0) ∧ ∀ w ∈ ws, ∀ c ∈ w, c ≠ 0 := by
  induction h with
  | nil => exact ⟨fun _ h ↦ absurd h List.not_mem_nil, fun _ h ↦ absurd h List.not_mem_nil⟩
  | cons hgiven _ ih =>
    exact ⟨List.forall_mem_cons.mpr ⟨hgiven.ne_null, ih.1⟩,
      List.forall_mem_cons.mpr ⟨hgiven.string.ne_zero, ih.2⟩⟩

/-- **Without a path.** -/
theorem exists_kept_iff (info : ElfInfo) {argv envp : List U64} {args env : List (List Byte)}
    (hint : args.length + env.length < 2 ^ 31)
    (hargv : List.Forall₂ (GivenString s.mem s.ptr 0 (stackRoom args env none)) argv args)
    (henvp : List.Forall₂ (GivenString s.mem s.ptr 0 (stackRoom args env none)) envp env) :
    (∃ ps qs, ps.length = argv.length ∧ qs.length = envp.length ∧
      Words (pushArguments info argv envp 0 s).mem (pushArguments info argv envp 0 s).ptr
        (initialWords info ps qs) ∧
      Kept (pushArguments info argv envp 0 s).mem s.ptr (ps ++ qs) (args ++ env)) ↔
      ∀ w ∈ args ++ env, w.length ≤ 255 := by
  have hargc := hargv.length_eq
  have henvc := henvp.length_eq
  have hbound := reservedSize_le (args ++ env)
  have hsize : stackRoom args env none =
      reservedSize args + reservedSize env + 15 + 8 * (15 + args.length + env.length) := by
    rw [stackRoom, Option.toList_none, List.append_nil, reservedSize_append]
  rw [reservedSize_append, List.length_append] at hbound
  generalize stackRoom args env none = size at *
  have hspec₁ := pushStrings_placed (down_zero s.ptr).symm hargv (by omega) (by omega)
  rcases hr₁ : pushStrings argv s with ⟨ps, s₁⟩
  rw [hr₁, Nat.zero_add] at hspec₁
  obtain ⟨hptr₁, hsame₁, hplaced₁⟩ := hspec₁
  have henvp' : List.Forall₂ (GivenString s₁.mem s.ptr (reservedSize args) size) envp env :=
    henvp.imp fun p w hg ↦ ⟨hg.string.congr fun i hi ↦ hsame₁ _ fun hin ↦
      hg.outside i hi ⟨hin.1, by omega⟩, hg.ne_null, fun i hi hin ↦
        hg.outside i hi ⟨by omega, hin.2⟩⟩
  have hspec₂ := pushStrings_placed hptr₁ henvp' (by omega) (by omega)
  rcases hr₂ : pushStrings envp s₁ with ⟨qs, s₂⟩
  rw [hr₂] at hspec₂
  obtain ⟨hptr₂, hsame₂, hplaced₂⟩ := hspec₂
  have hps : ps.length = argv.length := hplaced₁.length_eq.trans hargc.symm
  have hqs : qs.length = envp.length := hplaced₂.length_eq.trans henvc.symm
  obtain ⟨k, hk, hbound', hholds, -⟩ := holds_pushArguments info hr₁ hr₂ hptr₂ hps hqs (by omega)
  have hplaced : Placed s.ptr (pushArguments info argv envp 0 s).mem 0 (ps ++ qs)
    (args ++ env) := by
    have h₁ := (hplaced₁.of_same (by omega) hsame₂ (by omega)).append
      (by rw [Nat.zero_add]; exact hplaced₂)
    exact h₁.of_same (by rw [reservedSize_append]; omega) hholds.same
      (by rw [reservedSize_append]; omega)
  have hkept := kept_iff_of_placed hplaced (by rw [reservedSize_append]; omega) fun w hw ↦
    (List.mem_append.mp hw).elim ((forall₂_ne_zero hargv).2 w) ((forall₂_ne_zero henvp).2 w)
  rw [down_zero] at hkept
  refine ⟨?_, fun hall ↦ ⟨ps, qs, hps, hqs, hholds.words, hkept.mpr hall⟩⟩
  rintro ⟨ps', qs', hps', hqs', hwords, hk'⟩
  -- the pointers are those that have been stored
  have hlens : (initialWords info ps' qs').length = (initialWords info ps qs).length := by
    rw [length_initialWords, length_initialWords, hps', hqs', hps, hqs]
  obtain ⟨rfl, rfl⟩ := initialWords_inj (hps'.trans hps.symm)
    (words_unique hwords hholds.words hlens) (hqs'.trans hqs.symm)
  exact hkept.mp hk'

/-- **The strings are kept just if** there is no path and no string is too long, if the stack is
written at all.  `argc + envc` is an `int`. -/
theorem keepsStrings_iff (info : ElfInfo) (linker : Linker) (argv envp : List U64) (execPath : U64)
    (args env : List (List Byte)) (path : Option (List Byte)) (s : Stack)
    (hint : args.length + env.length < 2 ^ 31)
    (hargv : List.Forall₂ (GivenString s.mem s.ptr 0 (stackRoom args env path)) argv args)
    (henvp : List.Forall₂ (GivenString s.mem s.ptr 0 (stackRoom args env path)) envp env)
    (hpath : GivenPath s.mem execPath path) :
    KeepsStrings info linker argv envp execPath args env path s ↔
      linker = .invalid ∨ execPath = 0 ∧ ∀ w ∈ args ++ env, w.length ≤ 255 := by
  by_cases hlinker : linker = .invalid
  · subst hlinker
    exact ⟨fun _ ↦ Or.inl rfl, fun _ ↦ ⟨fun h ↦ absurd rfl h, fun p hp ↦
      absurd hp List.not_mem_nil⟩⟩
  have hstack : (loadElf info linker argv envp execPath s).2 =
      pushArguments info argv envp execPath s := by
    cases linker with
    | unnamed => rfl
    | invalid => exact absurd rfl hlinker
    | loaded => rfl
  have hreads : loadElfReads linker argv envp execPath =
      (argv.flatMap fun str ↦ [str, str]) ++ (envp.flatMap fun str ↦ [str, str]) ++
        if execPath ≠ 0 then [execPath, 0] else [] := by
    cases linker with
    | unnamed => rfl
    | invalid => exact absurd rfl hlinker
    | loaded => rfl
  rw [or_iff_right hlinker]
  refine ⟨fun hkeeps ↦ ?_, ?_⟩
  · have hnone : execPath = 0 := by
      by_contra hsome
      -- `strncpy` reads through the null pointer, which is not one of the given ones
      have hnull := hkeeps.reads 0 (by
        rw [hreads, if_pos hsome]
        exact List.mem_append_right _ (List.mem_cons_of_mem _ (List.mem_singleton_self 0)))
      rcases List.mem_append.mp hnull with hstr | hexec
      · rcases List.mem_append.mp hstr with hmem | hmem
        · exact (forall₂_ne_zero hargv).1 0 hmem rfl
        · exact (forall₂_ne_zero henvp).1 0 hmem rfl
      · exact hsome (List.mem_singleton.mp hexec).symm
    subst hnone
    cases path with
    | some w => exact absurd rfl hpath.1
    | none =>
      obtain ⟨ps, qs, pathVal, hps, hqs, hval, hwords, hkept⟩ := hkeeps.strings hlinker
      obtain rfl : pathVal = none := Option.not_isSome_iff_eq_none.mp (by rw [hval]; decide)
      rw [hstack] at hwords hkept
      rw [Option.toList_none, Option.toList_none, List.append_nil, List.append_nil] at hkept
      exact ⟨rfl, (exists_kept_iff info hint hargv henvp).mp ⟨ps, qs, hps, hqs, hwords, hkept⟩⟩
  · rintro ⟨rfl, hall⟩
    cases path with
    | some w => exact absurd rfl hpath.1
    | none =>
      obtain ⟨ps, qs, hps, hqs, hwords, hkept⟩ := (exists_kept_iff info hint hargv henvp).mpr hall
      refine ⟨fun _ ↦ ⟨ps, qs, none, hps, hqs, rfl, by rw [hstack]; exact hwords, ?_⟩,
        fun p hp ↦ ?_⟩
      · rw [hstack, Option.toList_none, Option.toList_none, List.append_nil, List.append_nil]
        exact hkept
      · rw [hreads, if_neg (not_not.mpr rfl), List.append_nil] at hp
        simp only [List.mem_append, List.mem_flatMap, List.mem_cons, List.not_mem_nil, or_false,
          or_self, exists_eq_right'] at hp
        exact List.mem_append_left _ (List.mem_append.mpr hp)

/-- The first process gets its strings, which it has no path for. -/
theorem keepsStrings_init :
    KeepsStrings ⟨0x400000#64, 0x40#64, 56#64, 4#64⟩ .unnamed [0xFFFFFFFF80100000#64]
      [0xFFFFFFFF80100005#64] 0 [[0x69, 0x6e, 0x69, 0x74]]
      [[0x50, 0x41, 0x54, 0x48, 0x3d, 0x2f, 0x69, 0x6e, 0x69, 0x74, 0x72, 0x64]] none
      ⟨0x201000#64, initStrings, []⟩ :=
  have hpath : GivenPath initStrings 0 none := rfl
  (keepsStrings_iff _ _ _ _ _ _ _ _ _ (by decide)
    (.cons ⟨⟨by decide, by decide, by decide⟩, by decide, by decide⟩ .nil)
    (.cons ⟨⟨by decide, by decide, by decide⟩, by decide, by decide⟩ .nil) hpath).mpr
    (Or.inr ⟨rfl, by decide⟩)

/-- The same with the path "init". -/
theorem not_keepsStrings_path :
    GivenPath initStrings 0xFFFFFFFF80100000#64 (some [0x69, 0x6e, 0x69, 0x74]) ∧
      ¬ KeepsStrings ⟨0x400000#64, 0x40#64, 56#64, 4#64⟩ .unnamed [] [] 0xFFFFFFFF80100000#64 [] []
        (some [0x69, 0x6e, 0x69, 0x74]) ⟨0x201000#64, initStrings, []⟩ := by
  refine ⟨⟨by decide, by decide, by decide, by decide⟩, fun hkeeps ↦ ?_⟩
  exact absurd (hkeeps.reads 0 (by decide)) (by decide)

end Borrrdex
