import Borrrdex.Kstd.Strtok
import Borrrdex.Lib.PathWalk

/-!
# Path resolution

`resolve_path` takes a path apart with `strtok_r`, in the caller's buffer, and looks its components
up one after another.  A node that is a symbolic link is replaced by what `follow_link` makes of
it, and that is `resolve_path` again, on the text of the link.

The nodes are a parameter: what `find_dir`, `read_link` and the flags of each are.  The recursion
through links need not end, so `resolvePath` has a fuel, which bounds how deep links may be nested;
`none` is a call that is still at work when it is spent.  What the lookups and the links followed
were is recorded as in `Lib.PathWalk`, and `resolvePath_eq_walk` says that a call is a walk there.

The walk is not the one the flag asks for.  The first of the two loops on links does not look at
`follow_symlinks`, so a link is always followed, at the end of a path as elsewhere, and the second
loop has nothing left to do.  The text of a link is resolved from the directory the link was found
in, whether it starts with a slash or not.
-/

set_option autoImplicit false

namespace Borrrdex

open Components PathWalk

variable {N : Type}

/-- `FS_NODE_TYPE`. -/
def fsNodeType : U32 := 0xF000#32

/-- `FS_NODE_DIRECTORY`. -/
def fsNodeDirectory : U32 := 0x4000#32

/-- `FS_NODE_SYMLINK`. -/
def fsNodeSymlink : U32 := 0xA000#32

/-- `SYMLINK_MAX`. -/
def symlinkMax : ℕ := 10

/-- The delimiters of a path, `"/"`. -/
def slash : List Byte := [0x2F, 0]

/-- The nodes of a file system as `resolve_path` sees them.  `readLink` is the text `read_link`
stores, or `none` when it answers with an error.  Every `find_dir` of the kernel looks for names in
directories only. -/
structure FileSystem (N : Type) where
  root : N
  flags : N → U32
  findDir : N → List Byte → Option N
  readLink : N → Option (List Byte)
  root_dir : flags root &&& fsNodeType = fsNodeDirectory
  findDir_dir : ∀ n name, flags n &&& fsNodeType ≠ fsNodeDirectory → findDir n name = none

namespace FileSystem

variable (fs : FileSystem N)

/-- `is_dir`. -/
def isDir (n : N) : Bool := fs.flags n &&& fsNodeType = fsNodeDirectory

/-- `is_symlink`. -/
def isSymlink (n : N) : Bool := fs.flags n &&& fsNodeType = fsNodeSymlink

/-- What a call of `resolve_path` leaves: the node, what it did, and the caller's buffer. -/
structure Resolved (N : Type) where
  node : Option N
  events : List (Event N (List Byte))
  buf : List Byte

/-- `follow_link(link, working_dir)`, with `resolve` for the call of `resolve_path`. -/
def followLink (resolve : List Byte → N → Option (Resolved N)) (workingDir link : N) :
    Option (Outcome N (List Byte)) :=
  match fs.readLink link with
  | none => some (none, [.follow link workingDir])
  | some text =>
    (resolve (text ++ [0]) workingDir).map fun r ↦ (r.node, .follow link workingDir :: r.events)

/-- `while(node->is_symlink()) ...`, with `symlink_count` at `count`; the loop is entered only if
`guard` holds.  The node is `none` where `resolve_path` returns null from inside the loop. -/
def linkLoop (guard : Bool) (follow : N → Option (Outcome N (List Byte))) :
    ℕ → ℕ → N → Option (Option (N × ℕ) × List (Event N (List Byte)))
  | 0, _, _ => none
  | rounds + 1, count, node =>
    if guard && fs.isSymlink node then
      if count > symlinkMax then some (none, [])
      else
        (follow node).bind fun o ↦
          match o.1 with
          | none => some (none, o.2)
          | some node => (linkLoop guard follow rounds (count + 1) node).map
              fun l ↦ (l.1, o.2 ++ l.2)
    else some (some (node, count), [])

/-- More rounds than either loop on links can make. -/
def linkRounds : ℕ := symlinkMax + 2

/-- What follows the first loop on links, with the node it ended on: on to the next component from
a directory, by `next`; an end anywhere else. -/
def tokenStep (resolve : List Byte → N → Option (Resolved N)) (followSymlinks : Bool)
    (next : N → Strtok → Option (Resolved N)) (current : N) (st : Strtok) (node : N) (count : ℕ) :
    Option (Resolved N) :=
  let st' := strtokR none st.saved slash st.buf
  if fs.isDir node then next node st'
  else if st'.token.isSome then some { node := none, events := [], buf := st'.buf }
  else
    (fs.linkLoop followSymlinks (fs.followLink resolve current) linkRounds count node).map
      fun l ↦ { node := l.1.map Prod.fst, events := l.2, buf := st'.buf }

/-- `while(file != nullptr) ...`, with the outcome of the last call of `strtok_r`. -/
def tokenLoop (resolve : List Byte → N → Option (Resolved N)) (followSymlinks : Bool) :
    ℕ → N → Strtok → Option (Resolved N)
  | 0, _, _ => none
  | rounds + 1, current, st =>
    match st.token with
    | none => some { node := some current, events := [], buf := st.buf }
    | some file =>
      let name := cString (st.buf.drop file)
      match fs.findDir current name with
      | none => some { node := none, events := [.look current name], buf := st.buf }
      | some node =>
        (fs.linkLoop true (fs.followLink resolve current) linkRounds 0 node).bind fun l ↦
          match l.1 with
          | none => some { node := none, events := .look current name :: l.2, buf := st.buf }
          | some (node, count) =>
            (fs.tokenStep resolve followSymlinks (tokenLoop resolve followSymlinks rounds) current
              st node count).map
                fun r ↦ { r with events := .look current name :: (l.2 ++ r.events) }

/-- `resolve_path(path, working_dir, follow_symlinks)`, on the buffer `path` points to.  Every round
of the loop uses up a character of the path. -/
def resolvePath : ℕ → List Byte → N → Bool → Option (Resolved N)
  | 0, _, _, _ => none
  | fuel + 1, path, workingDir, followSymlinks =>
    fs.tokenLoop (fun buf wd ↦ resolvePath fuel buf wd false) followSymlinks (path.length + 2)
      workingDir (strtokR (some 0) none slash path)

/-- The non-empty components of a path between slashes. -/
def pathComponents (path : List Byte) : List (List Byte) := components (· == 0x2F) (cString path)

/-- The nodes as a graph to walk on, with the texts of links resolved from where the link is. -/
def graph : PathWalk.Graph N (List Byte) where
  kind n :=
    if fs.isSymlink n then .link ((fs.readLink n).map fun text ↦ pathComponents (text ++ [0]))
    else if fs.isDir n then .directory else .file
  find := fs.findDir
  start _ d := d

/-! ## A call is a walk -/

variable {fs} {resolve : List Byte → N → Option (Resolved N)}
  {go : N → List (List Byte) → Option (Outcome N (List Byte))} {cur node : N}

/-- What a walk is compared on. -/
def Resolved.outcome (r : Resolved N) : Outcome N (List Byte) := (r.node, r.events)

theorem not_isDir_of_isSymlink (h : fs.isSymlink node = true) : fs.isDir node = false := by
  rw [isSymlink, decide_eq_true_eq] at h
  rw [isDir, h]
  decide

theorem graph_kind_directory : fs.graph.kind node = .directory ↔ fs.isDir node = true := by
  simp only [graph]
  by_cases hs : fs.isSymlink node = true
  · simp [hs, not_isDir_of_isSymlink hs]
  · by_cases hd : fs.isDir node = true <;> simp [hs, hd]

theorem graph_kind_link {t : Option (List (List Byte))} (h : fs.graph.kind node = .link t) :
    fs.isSymlink node = true ∧
      t = (fs.readLink node).map fun text ↦ pathComponents (text ++ [0]) := by
  simp only [graph] at h
  by_cases hs : fs.isSymlink node = true
  · rw [if_pos hs] at h
    exact ⟨hs, (Kind.link.inj h).symm⟩
  · rw [if_neg hs] at h
    split at h <;> cases h

theorem graph_startsInDirs : fs.graph.StartsInDirs := fun _ _ hd ↦ hd

/-- Following a link is arriving at it. -/
theorem followLink_eq_arrive
    (hres : ∀ buf, (resolve buf cur).map Resolved.outcome = go cur (pathComponents buf))
    (hs : fs.isSymlink node = true) :
    fs.followLink resolve cur node = fs.graph.arrive go true cur node := by
  have hk : fs.graph.kind node =
      .link ((fs.readLink node).map fun text ↦ pathComponents (text ++ [0])) := if_pos hs
  unfold followLink
  cases hr : fs.readLink node with
  | none =>
    rw [hr] at hk
    simp only [Graph.arrive, hk, Option.map_none]
  | some text =>
    rw [hr] at hk
    rw [Graph.arrive_link hk]
    show _ = (go cur (pathComponents (text ++ [0]))).map _
    rw [← hres (text ++ [0]), Option.map_map]
    rfl

/-- Neither loop has anything to do where there is no link. -/
theorem linkLoop_of_not_symlink {guard : Bool} {follow : N → Option (Outcome N (List Byte))}
    (rounds count : ℕ) (hs : fs.isSymlink node = false) :
    fs.linkLoop guard follow (rounds + 1) count node = some (some (node, count), []) := by
  rw [linkLoop, if_neg (by simp [hs])]

/-- No node arrived at is a link. -/
theorem arrive_not_symlink {o : Outcome N (List Byte)} {m : N}
    (hgo : ∀ cs o m, go cur cs = some o → o.1 = some m → fs.isSymlink m = false)
    (harr : fs.graph.arrive go true cur node = some o) (hm : o.1 = some m) :
    fs.isSymlink m = false := by
  obtain ⟨rfl, hnl⟩ | ⟨-, -, rfl⟩ | ⟨cs, o', -, -, hgo', rfl⟩ := Graph.arrive_eq_some harr
  · obtain rfl : node = m := by simpa using hm
    rw [← Bool.not_eq_true]
    exact fun hs ↦ hnl.resolve_left (by simp) _ (if_pos hs)
  · cases hm
  · exact hgo cs o' m hgo' hm

/-- The first loop makes one round at a link and none elsewhere, since what `follow_link` returns is
not a link. -/
theorem linkLoop_eq_arrive
    (hres : ∀ buf, (resolve buf cur).map Resolved.outcome = go cur (pathComponents buf))
    (hgo : ∀ cs o m, go cur cs = some o → o.1 = some m → fs.isSymlink m = false) :
    fs.linkLoop true (fs.followLink resolve cur) linkRounds 0 node =
      (fs.graph.arrive go true cur node).map fun o ↦
        (o.1.map fun m ↦ (m, if fs.isSymlink node then 1 else 0), o.2) := by
  rw [linkRounds, linkLoop]
  by_cases hs : fs.isSymlink node = true
  · rw [if_pos (by simpa using hs), if_neg (by decide), followLink_eq_arrive hres hs]
    cases harr : fs.graph.arrive go true cur node with
    | none => rfl
    | some o =>
      rw [Option.bind_some, Option.map_some]
      cases hm : o.1 with
      | none => rfl
      | some m =>
        have hnot : fs.isSymlink m = false := arrive_not_symlink hgo harr hm
        simp only [linkLoop_of_not_symlink symlinkMax (0 + 1) hnot]
        simp [hs]
  · have hk : ∀ t, fs.graph.kind node ≠ .link t := fun t h ↦ hs (graph_kind_link h).1
    rw [if_neg (by simpa using hs), Graph.arrive_of_not_link hk]
    simp [hs]

theorem strchr_slash {c : Byte} (hc : c ≠ 0) : (strchr slash c).isSome = (c == 0x2F) := by
  have hslash : cString slash = [0x2F] := by decide
  rw [strchr, hslash]
  by_cases h : c = 0x2F
  · subst h
    rfl
  · have h' : (0x2F#8 == c) = false := by simpa using Ne.symm h
    have h'' : (c == 0x2F#8) = false := by simpa using h
    have hc' : ¬ c = 0#8 := hc
    simp [List.findIdx?_cons, h', h'', hc']

theorem left_slash (path : List Byte) : left slash (some 0) path = pathComponents path := by
  refine components_congr fun c hc ↦ strchr_slash ?_
  have := List.mem_takeWhile_imp hc
  simpa using this

/-- The state of the tokenizer stands for these components. -/
def Tokens (st : Strtok) : List (List Byte) → Prop
  | [] => st.token = none
  | c :: cs => ∃ file, st.token = some file ∧ cString (st.buf.drop file) = c ∧
      left slash st.saved st.buf = cs

theorem tokens_strtokR (s m : Option ℕ) (buf : List Byte) :
    Tokens (strtokR s m slash buf) (left slash (s <|> m) buf) := by
  obtain ⟨hnil, hcons⟩ := strtokR_left s m slash buf
  cases h : left slash (s <|> m) buf with
  | nil =>
    rw [hnil h]
    rfl
  | cons c cs =>
    obtain ⟨file, m', buf', heq, hname, hleft, -⟩ := hcons c cs h
    rw [heq]
    exact ⟨file, rfl, hname, hleft⟩

/-- The loop on components, given what the calls for links return. -/
theorem tokenLoop_eq_walkWith {follow : Bool} {cs : List (List Byte)}
    (hres : ∀ cur buf, fs.isDir cur = true →
      (resolve buf cur).map Resolved.outcome = go cur (pathComponents buf))
    (hgo : ∀ cur cs o m, fs.isDir cur = true → go cur cs = some o → o.1 = some m →
      fs.isSymlink m = false) :
    ∀ (rounds : ℕ) (cur : N) (st : Strtok), cs.length < rounds → Tokens st cs →
      fs.isDir cur = true →
      (fs.tokenLoop resolve follow rounds cur st).map Resolved.outcome =
        fs.graph.walkWith go true cur cs := by
  induction cs with
  | nil =>
    intro rounds cur st hlt htok _
    obtain ⟨r, rfl⟩ : ∃ r, rounds = r + 1 := ⟨rounds - 1, by omega⟩
    rw [tokenLoop, show st.token = none from htok]
    rfl
  | cons c cs ih =>
    intro rounds cur st hlt htok hcur
    obtain ⟨r, rfl⟩ : ∃ r, rounds = r + 1 := ⟨rounds - 1, by omega⟩
    obtain ⟨file, hfile, rfl, rfl⟩ := htok
    simp only [tokenLoop, hfile]
    cases hfind : fs.findDir cur (cString (st.buf.drop file)) with
    | none =>
      rw [Graph.walkWith, show fs.graph.find cur _ = none from hfind]
      rfl
    | some node =>
      simp only [linkLoop_eq_arrive (fun buf ↦ hres cur buf hcur)
        (fun cs o m ↦ hgo cur cs o m hcur)]
      rw [Graph.walkWith_cons (show fs.graph.find cur _ = some node from hfind), Bool.true_or]
      cases harr : fs.graph.arrive go true cur node with
      | none => rfl
      | some o =>
        simp only [Option.map_some, Option.bind_some]
        cases hm : o.1 with
        | none =>
          simp only [Option.map_none, Graph.proceed, hm, Option.map_some]
          rfl
        | some m =>
          have hnot : fs.isSymlink m = false :=
            arrive_not_symlink (fun cs o m ↦ hgo cur cs o m hcur) harr hm
          have htok' : Tokens (strtokR none st.saved slash st.buf) (left slash st.saved st.buf) :=
            tokens_strtokR none st.saved st.buf
          simp only [Option.map_some, tokenStep]
          by_cases hdir : fs.isDir m = true
          · -- A directory: on to the next component.
            rw [if_pos hdir]
            simp only [Graph.proceed, hm, graph_kind_directory.mpr hdir]
            rw [← ih r m _ (by simpa using hlt) htok' hdir]
            simp only [Option.map_map]
            rfl
          · -- Anything else has to be the last component.
            rw [if_neg hdir, Graph.proceed_of_not_directory hm
              (fun h ↦ hdir (graph_kind_directory.mp h))]
            rw [show linkRounds = symlinkMax + 1 + 1 from rfl, linkLoop_of_not_symlink _ _ hnot]
            cases hleft : left slash st.saved st.buf with
            | nil =>
              rw [hleft] at htok'
              simp [show (strtokR none st.saved slash st.buf).token = none from htok',
                Resolved.outcome]
            | cons c' cs' =>
              rw [hleft] at htok'
              obtain ⟨file', hfile', -, -⟩ := htok'
              simp [hfile', Resolved.outcome]

/-- **A call of `resolve_path` is a walk that follows every link**, whatever the flag, from the
directory it is given along the components of the path. -/
theorem resolvePath_eq_walk (fs : FileSystem N) (fuel : ℕ) (path : List Byte) (wd : N)
    (follow : Bool) (hwd : fs.isDir wd = true) :
    (fs.resolvePath fuel path wd follow).map Resolved.outcome =
      fs.graph.walk fuel true wd (pathComponents path) := by
  induction fuel generalizing path wd follow with
  | zero => rfl
  | succ fuel ih =>
    refine tokenLoop_eq_walkWith (fun cur buf hcur ↦ ih buf cur false hcur) ?_ _ wd _ ?_
      (left_slash path ▸ tokens_strtokR (some 0) none path) hwd
    · intro cur cs o m hcur h hm
      rw [← Bool.not_eq_true]
      exact fun hs ↦ Graph.walk_not_link graph_startsInDirs (graph_kind_directory.mpr hcur) h hm _
        (if_pos hs)
    · have h₁ : (pathComponents path).length ≤ (cString path).length := length_components_le _
      have h₂ : (cString path).length ≤ path.length := (List.takeWhile_sublist _).length_le
      omega

/-! ## Paths without links -/

theorem walkWith_of_no_links (go : N → List (List Byte) → Option (Outcome N (List Byte)))
    (hno : ∀ n, fs.isSymlink n = false) (cs : List (List Byte)) :
    ∀ d, fs.isDir d = true → ∃ t, fs.graph.walkWith go true d cs =
      some (cs.foldlM fs.findDir d, t) := by
  induction cs with
  | nil => exact fun d _ ↦ ⟨[], rfl⟩
  | cons c cs ih =>
    intro d hd
    rw [List.foldlM_cons]
    cases hfind : fs.findDir d c with
    | none =>
      refine ⟨[.look d c], ?_⟩
      rw [Graph.walkWith, show fs.graph.find d c = none from hfind]
      rfl
    | some n =>
      have hk : ∀ t, fs.graph.kind n ≠ .link t := fun t h ↦ by
        have := (graph_kind_link h).1
        rw [hno n] at this
        cases this
      rw [Graph.walkWith_cons (show fs.graph.find d c = some n from hfind),
        Graph.arrive_of_not_link hk, Option.bind_some]
      by_cases hdir : fs.isDir n = true
      · obtain ⟨t, ht⟩ := ih n hdir
        refine ⟨.look d c :: t, ?_⟩
        simp only [Graph.proceed, graph_kind_directory.mpr hdir, ht, Option.map_some,
          List.nil_append]
        rfl
      · refine ⟨[.look d c], ?_⟩
        rw [Graph.proceed_of_not_directory rfl fun h ↦ hdir (graph_kind_directory.mp h)]
        cases cs with
        | nil => rfl
        | cons c' cs' =>
          have : fs.findDir n c' = none := fs.findDir_dir n c' (by simpa [isDir] using hdir)
          simp [this]

/-- A fold of `find_dir` fails at the first name that is not there, or at the first node that is
not a directory when there are names left. -/
theorem foldlM_findDir_eq_none (cs : List (List Byte)) :
    ∀ d, cs.foldlM fs.findDir d = none ↔ ∃ pre c post n, cs = pre ++ c :: post ∧
      pre.foldlM fs.findDir d = some n ∧ (fs.findDir n c = none ∨
        ∃ m, fs.findDir n c = some m ∧ fs.isDir m = false ∧ post ≠ []) := by
  induction cs with
  | nil => simp
  | cons c cs ih =>
    intro d
    rw [List.foldlM_cons]
    cases hfind : fs.findDir d c with
    | none => exact ⟨fun _ ↦ ⟨[], c, cs, d, rfl, rfl, .inl hfind⟩, fun _ ↦ rfl⟩
    | some n =>
      rw [Option.bind_eq_bind, Option.bind_some, ih n]
      constructor
      · rintro ⟨pre, c', post, n', rfl, hpre, h⟩
        refine ⟨c :: pre, c', post, n', rfl, ?_, h⟩
        rw [List.foldlM_cons, hfind]
        exact hpre
      · rintro ⟨pre, c', post, n', heq, hpre, h⟩
        cases pre with
        | nil =>
          obtain ⟨rfl, rfl⟩ := List.cons.inj heq
          obtain rfl : d = n' := by simpa using hpre
          obtain h | ⟨m, hm, hdir, hne⟩ := h
          · rw [hfind] at h
            cases h
          · obtain rfl : n = m := by simpa [hfind] using hm
            obtain ⟨c'', post, rfl⟩ := List.exists_cons_of_ne_nil hne
            exact ⟨[], c'', post, n, rfl, rfl,
              .inl (fs.findDir_dir n c'' (by simpa [isDir] using hdir))⟩
        | cons c₀ pre =>
          obtain ⟨rfl, rfl⟩ := List.cons.inj heq
          rw [List.foldlM_cons, hfind] at hpre
          exact ⟨pre, c', post, n', rfl, hpre, h⟩

/-! ### Slashes -/

/-- A string ends at its first NUL. -/
theorem cString_append_cases (a : List Byte) :
    (∀ b, cString (a ++ b) = cString a) ∨ ∀ b, cString (a ++ b) = a ++ cString b := by
  by_cases h : ∀ x ∈ a, x ≠ 0
  · exact .inr (cString_append h)
  · left
    intro b
    obtain ⟨x, hx, rfl⟩ : ∃ x ∈ a, x = 0 := by simpa using h
    obtain ⟨a₁, a₂, rfl, hnot⟩ := List.eq_append_cons_of_mem hx
    have hne : ∀ y ∈ a₁, y ≠ 0 := fun y hy h₀ ↦ hnot (h₀ ▸ hy)
    rw [List.append_assoc, List.cons_append, cString_append_cons_zero hne,
      cString_append_cons_zero hne]

theorem pathComponents_append_slash_slash (a b : List Byte) :
    pathComponents (a ++ 0x2F :: 0x2F :: b) = pathComponents (a ++ 0x2F :: b) := by
  rcases cString_append_cases a with h | h
  · rw [pathComponents, pathComponents, h, h]
  · rw [pathComponents, pathComponents, h, h]
    exact components_append_cons_cons rfl a (cString b)

theorem pathComponents_slash (a : List Byte) : pathComponents (0x2F :: a) = pathComponents a :=
  components_cons rfl (cString a)

theorem pathComponents_append_slash (a b : List Byte) :
    pathComponents (a ++ 0x2F :: 0 :: b) = pathComponents (a ++ 0 :: b) := by
  rcases cString_append_cases a with h | h
  · rw [pathComponents, pathComponents, h, h]
  · rw [pathComponents, pathComponents, h, h]
    have h₀ : cString (0 :: b) = [] := rfl
    rw [h₀, List.append_nil]
    exact components_concat rfl a

/-- **Path resolution without links.**  Where no node is a link a call returns, whatever the flag:
the node is what folding `find_dir` over the components of the path gives, null exactly if a
component is missing or one before the last is not a directory, and the directory itself for no
components.  Repeated, leading and trailing slashes make no difference. -/
theorem resolve_path_without_links (fs : FileSystem N) (hno : ∀ n, fs.isSymlink n = false)
    (wd : N) (hwd : fs.isDir wd = true) (follow : Bool) (fuel : ℕ) :
    (∀ path, ∃ r, fs.resolvePath (fuel + 1) path wd follow = some r ∧
      r.node = (pathComponents path).foldlM fs.findDir wd ∧
      (r.node = none ↔ ∃ pre c post n, pathComponents path = pre ++ c :: post ∧
        pre.foldlM fs.findDir wd = some n ∧ (fs.findDir n c = none ∨
          ∃ m, fs.findDir n c = some m ∧ fs.isDir m = false ∧ post ≠ [])) ∧
      (pathComponents path = [] → r.node = some wd)) ∧
    ∀ a b, let node path := (fs.resolvePath (fuel + 1) path wd follow).map Resolved.node
      node (a ++ 0x2F :: 0x2F :: b) = node (a ++ 0x2F :: b) ∧
      node (0x2F :: a) = node a ∧
      node (a ++ 0x2F :: 0 :: b) = node (a ++ 0 :: b) := by
  have hcall : ∀ path, ∃ r, fs.resolvePath (fuel + 1) path wd follow = some r ∧
      r.node = (pathComponents path).foldlM fs.findDir wd := by
    intro path
    obtain ⟨t, ht⟩ := walkWith_of_no_links (fs.graph.walk fuel true) hno
      (pathComponents path) wd hwd
    have h := resolvePath_eq_walk fs (fuel + 1) path wd follow hwd
    rw [Graph.walk, ht] at h
    obtain ⟨r, hr, hout⟩ := Option.map_eq_some_iff.mp h
    exact ⟨r, hr, congrArg Prod.fst hout⟩
  have hsame : ∀ p q, pathComponents p = pathComponents q →
      (fs.resolvePath (fuel + 1) p wd follow).map Resolved.node =
        (fs.resolvePath (fuel + 1) q wd follow).map Resolved.node := by
    intro p q heq
    obtain ⟨r, hr, hnode⟩ := hcall p
    obtain ⟨r', hr', hnode'⟩ := hcall q
    rw [hr, hr', Option.map_some, Option.map_some, hnode, hnode', heq]
  refine ⟨fun path ↦ ?_, fun a b ↦ ⟨hsame _ _ (pathComponents_append_slash_slash a b),
    hsame _ _ (pathComponents_slash a), hsame _ _ (pathComponents_append_slash a b)⟩⟩
  obtain ⟨r, hr, hnode⟩ := hcall path
  refine ⟨r, hr, hnode, ?_, fun h ↦ by rw [hnode, h]; rfl⟩
  rw [hnode]
  exact foldlM_findDir_eq_none (pathComponents path) wd

/-- A directory `a` in the root with a file `b` in it. -/
def twoLevels : FileSystem (Fin 3) where
  root := 0
  flags n := if n = 2 then 0x8000#32 else 0x4000#32
  findDir n name :=
    if n = 0 ∧ name = [0x61] then some 1 else if n = 1 ∧ name = [0x62] then some 2 else none
  readLink _ := none
  root_dir := by decide
  findDir_dir n name h := by
    have h₂ : n = 2 := by
      by_contra hne
      rw [if_neg hne] at h
      exact h (by decide)
    simp [h₂]

/-- `/a//b/` is the file. -/
theorem resolve_path_two_levels :
    ∃ r, twoLevels.resolvePath 1 [0x2F, 0x61, 0x2F, 0x2F, 0x62, 0x2F, 0] 0 true = some r ∧
      r.node = some 2 := by
  obtain ⟨r, hr, hnode, -⟩ := (resolve_path_without_links twoLevels (by decide) 0 (by decide) true
    0).1 [0x2F, 0x61, 0x2F, 0x2F, 0x62, 0x2F, 0]
  exact ⟨r, hr, hnode.trans (by decide)⟩

/-- The root, with a file `f` and a link `l` to it. -/
def oneLink : FileSystem (Fin 3) where
  root := 0
  flags n := if n = 0 then 0x4000#32 else if n = 1 then 0xA000#32 else 0x8000#32
  findDir n name :=
    if n = 0 ∧ name = [0x6C] then some 1 else if n = 0 ∧ name = [0x66] then some 2 else none
  readLink n := if n = 1 then some [0x66] else none
  root_dir := by decide
  findDir_dir n name h := by
    have h₀ : n ≠ 0 := by
      rintro rfl
      exact h (by decide)
    simp [h₀]

end FileSystem

end Borrrdex
