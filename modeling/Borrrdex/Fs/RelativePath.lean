import Borrrdex.Fs.ResolvePath
import Borrrdex.Kstd.Strncpy

/-!
# Relative paths

`resolve_path` with a working directory puts the two strings together on the heap and resolves the
result from the root.  The three copies write every character of both and the slash between them,
and nothing behind: `strncpy` with the length of a string for a limit leaves its null out, and no
other one is written.  The block has room for it, and what is there, and behind the block until a
null comes, belongs to the path as well.

`resolvesRelative_iff` says for which memories the result is right in every file system.
-/

set_option autoImplicit false

namespace Borrrdex

open FlatMemory Components PathWalk

/-- `fs::PATH_MAX`. -/
def pathMax : ℕ := 4096

/-- The string that `resolve_path` makes at `temp` of a working directory and a path; `separator` is
where the literal `"/"` is. -/
def joinPath (path workingDir separator temp : U64) (m : Mem) : Mem :=
  let pathLen := strnlen m path pathMax
  let wdLen := strnlen m workingDir pathMax
  let m := strncpy temp workingDir wdLen m
  let m := strncpy (temp + BitVec.ofNat 64 wdLen) separator 1 m
  strncpy (temp + BitVec.ofNat 64 (wdLen + 1)) path pathLen m

variable {N : Type}

/-- `resolve_path(path, working_dir, follow_symlinks)` on strings in memory, with `temp` for what
`malloc` returns. -/
def FileSystem.resolvePathIn (fs : FileSystem N) (fuel : ℕ) (path workingDir separator temp : U64)
    (followSymlinks : Bool) (m : Mem) : Option (Resolved N) :=
  if workingDir ≠ 0 ∧ m path ≠ 0x2F then
    let m := joinPath path workingDir separator temp m
    fs.resolvePath fuel (memoryFrom m (if temp ≠ 0 then temp else path)) fs.root followSymlinks
  else fs.resolvePath fuel (memoryFrom m path) fs.root followSymlinks

/-- None of the `n` bytes from `s` on is one of the `size` bytes of a block. -/
def OutsideBlock (block : U64) (size : ℕ) (s : U64) (n : ℕ) : Prop :=
  ∀ j < n, size ≤ (s + BitVec.ofNat 64 j - block).toNat

instance (block : U64) (size : ℕ) (s : U64) (n : ℕ) : Decidable (OutsideBlock block size s n) :=
  inferInstanceAs (Decidable (∀ j < n, _))

/-- A call with a working directory `w` and a path `p` that does not start with a slash, and with a
new block at `temp`. -/
structure Relative (m : Mem) (path workingDir separator temp : U64) (p w : List Byte) : Prop where
  atPath : CString m path p
  atWorkingDir : CString m workingDir w
  atSeparator : CString m separator [0x2F]
  workingDir_ne : workingDir ≠ 0
  relative : p.head? ≠ some 0x2F
  temp_ne : temp ≠ 0
  size_lt : min p.length pathMax + min w.length pathMax + 2 < 2 ^ 64
  path_outside : OutsideBlock temp (min p.length pathMax + min w.length pathMax + 2) path
    (p.length + 1)
  workingDir_outside : OutsideBlock temp (min p.length pathMax + min w.length pathMax + 2)
    workingDir (w.length + 1)
  separator_outside : OutsideBlock temp (min p.length pathMax + min w.length pathMax + 2)
    separator 2

/-- What the copies write. -/
def joined (p w : List Byte) : List Byte := w.take pathMax ++ 0x2F :: p.take pathMax

/-- What is in memory behind that, up to a null. -/
def stale (m : Mem) (temp : U64) (p w : List Byte) : List Byte :=
  cString (memoryFrom m (temp + BitVec.ofNat 64 (joined p w).length))

/-! ## The copies -/

theorem cString_memoryFrom {m : Mem} {a : U64} {w : List Byte} (h : CString m a w) :
    cString (memoryFrom m a) = w := by
  obtain ⟨rest, hrest⟩ := h.memoryFrom
  rw [hrest, cString_append_cons_zero h.ne_zero]


theorem OutsideBlock.apart {block s : U64} {size n : ℕ} (h : OutsideBlock block size s n)
    {off k : ℕ} (hsize : off + k ≤ size) (hk : k ≤ n) (hlt : size < 2 ^ 64) :
    Apart (block + BitVec.ofNat 64 off) s k := by
  intro j hj
  have hout := h j (by omega)
  rw [sub_add_eq_sub_sub, BitVec.toNat_sub, BitVec.toNat_ofNat]
  omega

/-- A copy into a block of a string that is outside of it. -/
theorem strncpy_block {m : Mem} {block s : U64} {size off k : ℕ} {w : List Byte}
    (hw : CString m s w) (hout : OutsideBlock block size s (w.length + 1)) (hsize : off + k ≤ size)
    (hk : k ≤ w.length) (hlt : size < 2 ^ 64) :
    strncpy (block + BitVec.ofNat 64 off) s k m =
      fun a ↦ if off ≤ (a - block).toNat ∧ (a - block).toNat < off + k then
        w.getD ((a - block).toNat - off) 0 else m a := by
  rw [strncpy_eq_copied (hout.apart hsize (by omega) hlt) (by omega)]
  · funext a
    have hlt' := (a - block).isLt
    have hsub : (a - (block + BitVec.ofNat 64 off)).toNat =
        ((a - block).toNat + (2 ^ 64 - off % 2 ^ 64)) % 2 ^ 64 := by
      rw [sub_add_eq_sub_sub, BitVec.toNat_sub, BitVec.toNat_ofNat, Nat.add_comm]
    rw [copied]
    by_cases ha : off ≤ (a - block).toNat ∧ (a - block).toNat < off + k
    · have hoff : (a - (block + BitVec.ofNat 64 off)).toNat = (a - block).toNat - off := by omega
      have hchar := hw.getD (i := (a - (block + BitVec.ofNat 64 off)).toNat) (by omega)
      rw [BitVec.ofNat_toNat, BitVec.setWidth_eq, hoff] at hchar
      rw [if_pos (by omega), if_pos ha, hchar]
    · rw [if_neg (by omega), if_neg ha]
  · intro i hi
    rw [hw.char i (by omega)]
    exact hw.ne_zero _ (List.getElem_mem _)

/-- The string stays where it is. -/
theorem OutsideBlock.cString {m m' : Mem} {block s : U64} {size : ℕ} {w : List Byte}
    (hout : OutsideBlock block size s (w.length + 1)) (hw : CString m s w)
    (hsame : ∀ a, size ≤ (a - block).toNat → m' a = m a) : CString m' s w :=
  hw.congr fun i hi ↦ hsame _ (hout i (by omega))

theorem length_joined (p w : List Byte) :
    (joined p w).length = min w.length pathMax + 1 + min p.length pathMax := by
  rw [joined, List.length_append, List.length_cons, List.length_take, List.length_take,
    Nat.min_comm, Nat.min_comm pathMax]
  omega

theorem getD_take {l : List Byte} {n i : ℕ} (hi : i < n) : (l.take n).getD i 0 = l.getD i 0 := by
  rw [List.getD_eq_getElem?_getD, List.getD_eq_getElem?_getD, List.getElem?_take_of_lt hi]

theorem getD_joined_workingDir {p w : List Byte} {i : ℕ} (hi : i < min w.length pathMax) :
    (joined p w).getD i 0 = w.getD i 0 := by
  rw [joined, List.getD_eq_getElem?_getD, List.getElem?_append_left
    (by rw [List.length_take]; omega), ← List.getD_eq_getElem?_getD, getD_take (by omega)]

theorem getD_joined_separator (p w : List Byte) :
    (joined p w).getD (min w.length pathMax) 0 = 0x2F := by
  have hlen : (w.take pathMax).length = min w.length pathMax := by
    rw [List.length_take, Nat.min_comm]
  rw [joined, List.getD_eq_getElem?_getD, List.getElem?_append_right hlen.le, hlen, Nat.sub_self]
  rfl

theorem getD_joined_path {p w : List Byte} {i : ℕ} (hi : i < min p.length pathMax) :
    (joined p w).getD (min w.length pathMax + 1 + i) 0 = p.getD i 0 := by
  have hlen : (w.take pathMax).length = min w.length pathMax := by
    rw [List.length_take, Nat.min_comm]
  rw [joined, List.getD_eq_getElem?_getD, List.getElem?_append_right (by omega), hlen,
    show min w.length pathMax + 1 + i - min w.length pathMax = i + 1 by omega,
    List.getElem?_cons_succ, ← List.getD_eq_getElem?_getD, getD_take (by omega)]

section Joined

variable {m : Mem} {path workingDir separator temp : U64} {p w : List Byte}

/-- **What the three copies leave.** -/
theorem joinPath_eq (h : Relative m path workingDir separator temp p w) :
    joinPath path workingDir separator temp m = fun a ↦
      if (a - temp).toNat < (joined p w).length then (joined p w).getD (a - temp).toNat 0
      else m a := by
  set pl := min p.length pathMax with hpl
  set wl := min w.length pathMax with hwl
  have hlen : (joined p w).length = wl + 1 + pl := length_joined p w
  have hsize := h.size_lt
  -- after the working directory
  set m₁ := strncpy temp workingDir wl m with hm₁
  have h₁ : m₁ = fun a ↦ if (a - temp).toNat < wl then w.getD (a - temp).toNat 0 else m a := by
    have hcopy := strncpy_block h.atWorkingDir h.workingDir_outside
      (show 0 + wl ≤ _ by omega) (by omega) hsize
    rw [BitVec.add_zero] at hcopy
    rw [hm₁, hcopy]
    funext a
    by_cases ha : (a - temp).toNat < wl
    · rw [if_pos (by omega), if_pos ha, Nat.sub_zero]
    · rw [if_neg (by omega), if_neg ha]
  have hsame₁ : ∀ a, pl + wl + 2 ≤ (a - temp).toNat → m₁ a = m a := fun a ha ↦ by
    rw [h₁]
    exact if_neg (by omega)
  -- after the slash
  set m₂ := strncpy (temp + BitVec.ofNat 64 wl) separator 1 m₁ with hm₂
  have h₂ : m₂ = fun a ↦ if (a - temp).toNat = wl then 0x2F else m₁ a := by
    rw [hm₂, strncpy_block (h.separator_outside.cString h.atSeparator hsame₁) h.separator_outside
      (show wl + 1 ≤ _ by omega) le_rfl hsize]
    funext a
    by_cases ha : (a - temp).toNat = wl
    · rw [if_pos (by omega), if_pos ha, ha, Nat.sub_self]
      rfl
    · rw [if_neg (by omega), if_neg ha]
  have hsame₂ : ∀ a, pl + wl + 2 ≤ (a - temp).toNat → m₂ a = m a := fun a ha ↦ by
    rw [h₂, ← hsame₁ a ha]
    exact if_neg (by omega)
  -- after the path
  rw [joinPath, strnlen_eq_min h.atPath, strnlen_eq_min h.atWorkingDir]
  rw [← hpl, ← hwl, ← hm₁, ← hm₂, strncpy_block (h.path_outside.cString h.atPath hsame₂)
    h.path_outside (show wl + 1 + pl ≤ _ by omega) (by omega) hsize]
  funext a
  rw [hlen]
  by_cases hpath : wl + 1 ≤ (a - temp).toNat ∧ (a - temp).toNat < wl + 1 + pl
  · have hget := getD_joined_path (w := w) (show (a - temp).toNat - (wl + 1) < _ from
      (show _ < pl by omega))
    rw [← hwl, Nat.add_sub_cancel' hpath.1] at hget
    rw [if_pos hpath, if_pos hpath.2, hget]
  · rw [if_neg hpath, h₂]
    dsimp only
    by_cases hslash : (a - temp).toNat = wl
    · rw [if_pos hslash, if_pos (by omega), hslash]
      exact (getD_joined_separator p w).symm
    · rw [if_neg hslash, h₁]
      dsimp only
      by_cases hdir : (a - temp).toNat < wl
      · rw [if_pos hdir, if_pos (by omega)]
        exact (getD_joined_workingDir hdir).symm
      · rw [if_neg hdir, if_neg (by omega)]

/-- **What `resolve_path` goes by**: the characters that were copied, and the stale ones. -/
theorem cString_joinPath (h : Relative m path workingDir separator temp p w) :
    cString (memoryFrom (joinPath path workingDir separator temp m) temp) =
      joined p w ++ stale m temp p w := by
  have hlen : (joined p w).length + 1 = min p.length pathMax + min w.length pathMax + 2 := by
    rw [length_joined]
    omega
  -- the null of the path is behind the block, so the stale characters end before it
  have hout := h.path_outside p.length (Nat.lt_succ_self _)
  rw [← hlen] at hout
  set n := (joined p w).length
  set d := (path + BitVec.ofNat 64 p.length - temp).toNat with hd
  have hdlt : d < 2 ^ 64 := BitVec.isLt _
  have hnull : m (temp + BitVec.ofNat 64 n + BitVec.ofNat 64 (d - n)) = 0 := by
    rw [add_assoc, ← BitVec.ofNat_add, Nat.add_sub_cancel' (by omega), hd, BitVec.ofNat_toNat,
      BitVec.setWidth_eq, add_sub_cancel]
    exact h.atPath.null
  obtain ⟨u, hu, hulen⟩ := exists_cString hnull
  have hstale : stale m temp p w = u := cString_memoryFrom hu
  refine cString_memoryFrom (CString.of_getD (fun i hi ↦ ?_) fun c hc ↦ ?_)
  · rw [List.length_append, hstale] at hi
    have hoff : (temp + BitVec.ofNat 64 i - temp).toNat = i := by
      rw [add_sub_cancel_left, BitVec.toNat_ofNat, Nat.mod_eq_of_lt (by omega)]
    rw [joinPath_eq h, hstale]
    dsimp only
    rw [hoff]
    by_cases hin : i < n
    · rw [if_pos hin, List.getD_eq_getElem?_getD, List.getD_eq_getElem?_getD,
        List.getElem?_append_left hin]
    · have hchar := hu.getD (i := i - n) (by omega)
      rw [add_assoc, ← BitVec.ofNat_add, Nat.add_sub_cancel' (by omega)] at hchar
      rw [if_neg hin, hchar, List.getD_eq_getElem?_getD, List.getD_eq_getElem?_getD,
        List.getElem?_append_right (by omega)]
  · rcases List.mem_append.mp hc with hc | hc
    · rcases List.mem_append.mp hc with hc | hc
      · exact h.atWorkingDir.ne_zero c (List.mem_of_mem_take hc)
      · rcases List.mem_cons.mp hc with rfl | hc
        · decide
        · exact h.atPath.ne_zero c (List.mem_of_mem_take hc)
    · rw [hstale] at hc
      exact hu.ne_zero c hc

end Joined

/-! ## Which paths that is right for -/

namespace FileSystem

/-- A file system where every name leads to a directory, the one of the names on the way to it. -/
def namesFs : FileSystem (List (List Byte)) where
  root := []
  flags _ := fsNodeDirectory
  findDir n name := some (n ++ [name])
  readLink _ := none
  root_dir := by decide
  findDir_dir _ _ h := absurd (by decide) h

theorem foldlM_namesFs (cs d : List (List Byte)) :
    cs.foldlM namesFs.findDir d = some (d ++ cs) := by
  induction cs generalizing d with
  | nil => rw [List.append_nil]; rfl
  | cons c cs ih =>
    rw [List.foldlM_cons, show namesFs.findDir d c = some (d ++ [c]) from rfl, Option.bind_eq_bind,
      Option.bind_some, ih, List.append_assoc, List.singleton_append]

/-- There a path leads to its components. -/
theorem node_namesFs (fuel : ℕ) (path : List Byte) (follow : Bool) :
    (namesFs.resolvePath (fuel + 1) path namesFs.root follow).map Resolved.node =
      some (some (pathComponents path)) := by
  have hwalk := resolvePath_eq_walk namesFs (fuel + 1) path [] follow rfl
  obtain ⟨t, ht⟩ : ∃ t, namesFs.graph.walkWith (namesFs.graph.walk fuel true) true []
      (pathComponents path) = some ((pathComponents path).foldlM namesFs.findDir [], t) :=
    walkWith_of_no_links _
      (fun _ ↦ decide_eq_false (show fsNodeDirectory &&& fsNodeType ≠ fsNodeSymlink by decide))
      (pathComponents path) [] rfl
  rw [foldlM_namesFs, List.nil_append] at ht
  rw [Graph.walk, ht] at hwalk
  have hnode := congrArg (Option.map Prod.fst) hwalk
  rw [Option.map_map] at hnode
  exact hnode

/-- Paths with the same components are resolved alike. -/
theorem node_eq_of_components {fs : FileSystem N} {path path' : List Byte}
    (h : pathComponents path = pathComponents path') (fuel : ℕ) (follow : Bool) :
    (fs.resolvePath fuel path fs.root follow).map Resolved.node =
      (fs.resolvePath fuel path' fs.root follow).map Resolved.node := by
  have hroot : fs.isDir fs.root = true := decide_eq_true fs.root_dir
  have hwalk := resolvePath_eq_walk fs fuel path fs.root follow hroot
  rw [h, ← resolvePath_eq_walk fs fuel path' fs.root follow hroot] at hwalk
  have hnode := congrArg (Option.map Prod.fst) hwalk
  rw [Option.map_map, Option.map_map] at hnode
  exact hnode

/-- The call resolves what the working directory, a slash and the path are together, in every file
system. -/
def ResolvesRelative (path workingDir separator temp : U64) (p w : List Byte) (m : Mem) : Prop :=
  ∀ (N : Type) (fs : FileSystem N) (fuel : ℕ) (follow : Bool),
    (fs.resolvePathIn fuel path workingDir separator temp follow m).map Resolved.node =
      (fs.resolvePath fuel (w ++ 0x2F :: p ++ [0]) fs.root follow).map Resolved.node

variable {m : Mem} {path workingDir separator temp : U64} {p w : List Byte}

/-- **When relative paths are resolved right.**  The string that is made has to have the components
of the whole; where neither string is too long, only slashes may come before the first null behind
the copies. -/
theorem resolvesRelative_iff (h : Relative m path workingDir separator temp p w) :
    (ResolvesRelative path workingDir separator temp p w m ↔
      components (· == 0x2F) (joined p w ++ stale m temp p w) =
        components (· == 0x2F) (w ++ 0x2F :: p)) ∧
    (p.length ≤ pathMax → w.length ≤ pathMax →
      (ResolvesRelative path workingDir separator temp p w m ↔
        ∀ c ∈ stale m temp p w, c = 0x2F)) := by
  have hslash : m path ≠ 0x2F := by
    have hfirst := h.atPath.getD (Nat.zero_le _)
    rw [BitVec.add_zero] at hfirst
    rw [hfirst]
    cases p with
    | nil => decide
    | cons c p => exact fun hc ↦ h.relative (congrArg some hc)
  have hcall : ∀ (N : Type) (fs : FileSystem N) (fuel : ℕ) (follow : Bool),
      fs.resolvePathIn fuel path workingDir separator temp follow m =
        fs.resolvePath fuel (memoryFrom (joinPath path workingDir separator temp m) temp) fs.root
          follow := fun N fs fuel follow ↦ by
    rw [resolvePathIn, if_pos ⟨h.workingDir_ne, hslash⟩]
    dsimp only
    rw [if_pos h.temp_ne]
  have hmade : pathComponents (memoryFrom (joinPath path workingDir separator temp m) temp) =
      components (· == 0x2F) (joined p w ++ stale m temp p w) :=
    congrArg _ (cString_joinPath h)
  have hwhole : pathComponents (w ++ 0x2F :: p ++ [0]) =
      components (· == 0x2F) (w ++ 0x2F :: p) := by
    refine congrArg _ (cString_append_cons_zero (fun c hc ↦ ?_) [])
    rcases List.mem_append.mp hc with hc | hc
    · exact h.atWorkingDir.ne_zero c hc
    · rcases List.mem_cons.mp hc with rfl | hc
      · decide
      · exact h.atPath.ne_zero c hc
  have hiff : ResolvesRelative path workingDir separator temp p w m ↔
      components (· == 0x2F) (joined p w ++ stale m temp p w) =
        components (· == 0x2F) (w ++ 0x2F :: p) := by
    rw [← hmade, ← hwhole]
    constructor
    · intro hall
      have hnames := hall _ namesFs 1 true
      rw [hcall, node_namesFs, node_namesFs] at hnames
      exact Option.some.inj (Option.some.inj hnames)
    · intro hcomponents N fs fuel follow
      rw [hcall]
      exact node_eq_of_components hcomponents fuel follow
  refine ⟨hiff, fun hp hw ↦ hiff.trans ?_⟩
  rw [joined, List.take_of_length_le hp, List.take_of_length_le hw, components_append_eq_iff]
  simp only [beq_iff_eq]

/-- `a` in the working directory `w`, with a byte behind the block for the string. -/
def sampleMemory (left : Byte) : Mem := fun a ↦
  ([(0x1000, 0x61), (0x2000, 0x77), (0x3000, 0x2F), (0x4003, left)].lookup a).getD 0

/-- A string of one character. -/
theorem cString_singleton {m : Mem} {a : U64} {c : Byte} (hchar : m a = c) (hnull : m (a + 1) = 0)
    (hne : c ≠ 0) : CString m a [c] := by
  refine CString.of_getD (fun i hi ↦ ?_) (List.forall_mem_singleton.mpr hne)
  rcases Nat.le_one_iff_eq_zero_or_eq_one.mp hi with rfl | rfl
  · rw [BitVec.add_zero, hchar]
    rfl
  · exact hnull

theorem relative_sampleMemory (left : Byte) :
    Relative (sampleMemory left) 0x1000 0x2000 0x3000 0x4000 [0x61] [0x77] where
  atPath := cString_singleton rfl rfl (by decide)
  atWorkingDir := cString_singleton rfl rfl (by decide)
  atSeparator := cString_singleton rfl rfl (by decide)
  workingDir_ne := by decide
  relative := by decide
  temp_ne := by decide
  size_lt := by decide
  path_outside := by decide
  workingDir_outside := by decide
  separator_outside := by decide

/-- A block full of nulls. -/
theorem resolvesRelative_sampleMemory :
    ResolvesRelative 0x1000 0x2000 0x3000 0x4000 [0x61] [0x77] (sampleMemory 0) := by
  refine ((resolvesRelative_iff (relative_sampleMemory 0)).2 (by decide) (by decide)).mpr ?_
  have hstale : stale (sampleMemory 0) 0x4000 [0x61] [0x77] = [] :=
    cString_memoryFrom (CString.of_getD (fun i hi ↦ by
      obtain rfl := Nat.le_zero.mp hi
      rfl) fun _ hc ↦ absurd hc List.not_mem_nil)
  rw [hstale]
  exact fun _ hc ↦ absurd hc List.not_mem_nil

/-- With an `x` left where the null should be, `w/ax` is resolved instead of `w/a`. -/
theorem not_resolvesRelative_sampleMemory :
    Relative (sampleMemory 0x78) 0x1000 0x2000 0x3000 0x4000 [0x61] [0x77] ∧
      ¬ ResolvesRelative 0x1000 0x2000 0x3000 0x4000 [0x61] [0x77] (sampleMemory 0x78) := by
  refine ⟨relative_sampleMemory _, fun hall ↦ ?_⟩
  have hstale : stale (sampleMemory 0x78) 0x4000 [0x61] [0x77] = [0x78] :=
    cString_memoryFrom (cString_singleton rfl rfl (by decide))
  have hmade := cString_joinPath (relative_sampleMemory 0x78)
  have hnames := hall _ namesFs 1 true
  rw [resolvePathIn, if_pos (by decide)] at hnames
  dsimp only at hnames
  rw [if_pos (by decide), node_namesFs, node_namesFs, pathComponents, hmade, hstale] at hnames
  exact absurd (Option.some.inj (Option.some.inj hnames)) (by decide)

end FileSystem

end Borrrdex
