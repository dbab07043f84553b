import Borrrdex.Fs.Tar

/-!
# Names that begin with a dot

The two file systems in memory, archives and `dev_fs`, test for `.` and `..` with `strncmp` and a
length of 1, before they look for a name.  So the first test takes every name that begins with a
dot, and the second is never reached with one.  The other names are compared up to a length as well,
which is longer than names are.

`findDir_dots_iff` says for which names a lookup returns what it should.
-/

set_option autoImplicit false

namespace Borrrdex

namespace Tar

namespace TarVolume

/-- The children of a directory, by their inodes. -/
def children (v : TarVolume) (inode : ℕ) : List ℕ :=
  (List.range (v.node inode).entryCount).map (v.node inode).children.get

/-- What a name should lead to in a directory. -/
def named (v : TarVolume) (inode : ℕ) (name : List Byte) : Option Found :=
  if name = dot then some (.node inode)
  else if name = dotDot then
    if inode = 0 then some .root else some (.node (v.node inode).parent)
  else ((v.children inode).find? fun child ↦ (v.node child).name = name).map .node

end TarVolume

/-- A device as `dev_fs` sees it. -/
structure Device where
  id : ℕ
  instanceName : List Byte
  name_ne_zero : ∀ c ∈ instanceName, c ≠ 0
deriving DecidableEq

/-- What `dev_fs::find_dir` returns: itself, the root of all file systems, or a device. -/
inductive DevFound
  | this
  | root
  | device (d : Device)
deriving DecidableEq

/-- Whether `dev_fs` takes a device for the one with a name; `NAME_MAX` is 255. -/
def Device.matches (name : List Byte) (d : Device) : Bool :=
  (strncmp (terminated d.instanceName) (terminated name) 255).1 = 0

/-- `dev_fs::find_dir`, with the devices in the order of `all_devices`. -/
def devFindDir (devices : List Device) (name : List Byte) : Option DevFound :=
  if (strncmp (terminated name) (terminated dot) 1).1 = 0 then some .this
  else if (strncmp (terminated name) (terminated dotDot) 1).1 = 0 then some .root
  else (devices.find? (Device.matches name)).map .device

/-- What a name should lead to there. -/
def devNamed (devices : List Device) (name : List Byte) : Option DevFound :=
  if name = dot then some .this
  else if name = dotDot then some .root
  else (devices.find? fun d ↦ d.instanceName = name).map .device

/-! ## The tests -/

section Tests

variable {name : List Byte} (hname : ∀ c ∈ name, c ≠ 0)

theorem take_one_eq_iff : name.take 1 = [0x2E] ↔ name.head? = some 0x2E := by
  cases name <;> simp

include hname in
/-- Both tests ask for the first character only. -/
theorem strncmp_dot (w : List Byte) (hw : w = dot ∨ w = dotDot) :
    (strncmp (terminated w) (terminated name) 1).1 = 0 ↔ name.head? = some 0x2E := by
  have hw' : ∀ c ∈ w, c ≠ 0 := by
    rcases hw with rfl | rfl <;> decide
  have htake : w.take 1 = [0x2E] := by
    rcases hw with rfl | rfl <;> rfl
  rw [strncmp_eq_zero_iff hw' hname, htake, eq_comm, take_one_eq_iff]

include hname in
theorem strncmp_dot' (w : List Byte) (hw : w = dot ∨ w = dotDot) :
    (strncmp (terminated name) (terminated w) 1).1 = 0 ↔ name.head? = some 0x2E := by
  have hw' : ∀ c ∈ w, c ≠ 0 := by
    rcases hw with rfl | rfl <;> decide
  have htake : w.take 1 = [0x2E] := by
    rcases hw with rfl | rfl <;> rfl
  rw [strncmp_eq_zero_iff hname hw', htake, take_one_eq_iff]

theorem head?_of_dots (h : name = dot ∨ name = dotDot) : name.head? = some 0x2E := by
  rcases h with rfl | rfl <;> rfl

/-- Two lookups by a test that is true where the other is come to the same exactly if the first
element that passes it passes the other. -/
theorem find?_eq_iff {α : Type} {l : List α} {p q : α → Bool} (hqp : ∀ x, q x = true → p x = true) :
    l.find? p = l.find? q ↔ ∀ x, l.find? p = some x → q x = true := by
  constructor
  · intro h x hx
    exact List.find?_some (h ▸ hx)
  · intro h
    induction l with
    | nil => rfl
    | cons a l ih =>
      by_cases hp : p a = true
      · have hq := h a (List.find?_cons_of_pos hp)
        rw [List.find?_cons_of_pos hp, List.find?_cons_of_pos hq]
      · have hq : ¬ q a = true := fun hq ↦ hp (hqp a hq)
        rw [List.find?_cons_of_neg hp] at h
        rw [List.find?_cons_of_neg hp, List.find?_cons_of_neg hq]
        exact ih h

end Tests

/-! ## Archives -/

namespace TarVolume

variable {v : TarVolume} {inode : ℕ} {name : List Byte}

theorem findLoop_eq (hname : ∀ c ∈ name, c ≠ 0) (dir : TarNode) (rounds e : ℕ) :
    v.findLoop dir name rounds e = ((List.range' e rounds).map dir.children.get).find?
      fun child ↦ (v.node child).name.take 256 = name.take 256 := by
  induction rounds generalizing e with
  | zero => rfl
  | succ rounds ih =>
    have htest := strncmp_eq_zero_iff (v.node (dir.children.get e)).name_ne_zero hname 256
    rw [findLoop, List.range'_succ, List.map_cons]
    by_cases hmatch : (v.node (dir.children.get e)).name.take 256 = name.take 256
    · rw [if_pos (htest.mpr hmatch)]
      exact (List.find?_cons_of_pos (by simpa using hmatch)).symm
    · rw [if_neg (fun h ↦ hmatch (htest.mp h)), ih]
      exact (List.find?_cons_of_neg (by simpa using hmatch)).symm

/-- **Which names are looked up right in an archive**: the dot, and those that do not begin with
one, as long as no child only agrees with them in the first 256 characters; of the others only what
leads to the directory itself. -/
theorem tarFindDir_iff (hdir : (v.node inode).isDir = true) (hname : ∀ c ∈ name, c ≠ 0) :
    v.findDir inode name = v.named inode name ↔
      name = dot ∨ (name.head? = some 0x2E ∧ v.named inode name = some (.node inode)) ∨
        name.head? ≠ some 0x2E ∧ ∀ child, (v.children inode).find? (fun child ↦
          (v.node child).name.take 256 = name.take 256) = some child →
            (v.node child).name = name := by
  rw [findDir, hdir, if_neg (by decide)]
  by_cases hhead : name.head? = some 0x2E
  · rw [if_pos ((strncmp_dot hname dot (.inl rfl)).mpr hhead)]
    by_cases hdot : name = dot
    · exact iff_of_true (by rw [named, if_pos hdot]) (.inl hdot)
    · refine ⟨fun h ↦ .inr (.inl ⟨hhead, h.symm⟩), ?_⟩
      rintro (h | ⟨-, h⟩ | ⟨h, -⟩)
      · exact absurd h hdot
      · exact h.symm
      · exact absurd hhead h
  · have hdots : name ≠ dot ∧ name ≠ dotDot :=
      ⟨fun h ↦ hhead (head?_of_dots (.inl h)), fun h ↦ hhead (head?_of_dots (.inr h))⟩
    rw [if_neg (fun h ↦ hhead ((strncmp_dot hname dot (.inl rfl)).mp h)),
      if_neg (fun h ↦ hhead ((strncmp_dot hname dotDot (.inr rfl)).mp h)), named, if_neg hdots.1,
      if_neg hdots.2, findLoop_eq hname, ← List.range_eq_range']
    have hexact := find?_eq_iff (l := v.children inode)
      (p := fun child ↦ (v.node child).name.take 256 = name.take 256)
      (q := fun child ↦ (v.node child).name = name) fun child h ↦ by
        rw [decide_eq_true_eq] at h ⊢
        rw [h]
    constructor
    · intro h
      refine .inr (.inr ⟨hhead, fun child hchild ↦ ?_⟩)
      have hfind := Option.map_injective (fun _ _ ↦ Found.node.inj) h
      exact of_decide_eq_true (hexact.mp hfind child hchild)
    · rintro (h | ⟨h, -⟩ | ⟨-, h⟩)
      · exact absurd h hdots.1
      · exact absurd h hhead
      · exact congrArg _ (hexact.mpr fun child hchild ↦ decide_eq_true (h child hchild))

end TarVolume

/-! ## Devices -/

theorem devFindDir_iff {name : List Byte} (hname : ∀ c ∈ name, c ≠ 0) (devices : List Device) :
    devFindDir devices name = devNamed devices name ↔
      name = dot ∨ name.head? ≠ some 0x2E ∧ ∀ d, devices.find? (fun d ↦
        d.instanceName.take 255 = name.take 255) = some d → d.instanceName = name := by
  rw [devFindDir]
  by_cases hhead : name.head? = some 0x2E
  · rw [if_pos ((strncmp_dot' hname dot (.inl rfl)).mpr hhead), devNamed]
    by_cases hdot : name = dot
    · exact iff_of_true (by rw [if_pos hdot]) (.inl hdot)
    · rw [if_neg hdot]
      refine iff_of_false (fun h ↦ ?_) fun h ↦ ?_
      · split at h
        · exact absurd (Option.some.inj h) (by decide)
        · obtain ⟨d, -, hd⟩ := Option.map_eq_some_iff.mp h.symm
          cases hd
      · exact h.elim hdot fun h ↦ h.1 hhead
  · have hdots : name ≠ dot ∧ name ≠ dotDot :=
      ⟨fun h ↦ hhead (head?_of_dots (.inl h)), fun h ↦ hhead (head?_of_dots (.inr h))⟩
    have hmatches : Device.matches name = fun d ↦
        decide (d.instanceName.take 255 = name.take 255) := funext fun d ↦
      decide_eq_decide.mpr (strncmp_eq_zero_iff d.name_ne_zero hname 255)
    rw [if_neg (fun h ↦ hhead ((strncmp_dot' hname dot (.inl rfl)).mp h)),
      if_neg (fun h ↦ hhead ((strncmp_dot' hname dotDot (.inr rfl)).mp h)), devNamed,
      if_neg hdots.1, if_neg hdots.2, hmatches]
    have hexact := find?_eq_iff (l := devices)
      (p := fun d ↦ d.instanceName.take 255 = name.take 255)
      (q := fun d ↦ d.instanceName = name) fun d h ↦ by
        rw [decide_eq_true_eq] at h ⊢
        rw [h]
    constructor
    · intro h
      refine .inr ⟨hhead, fun d hd ↦ ?_⟩
      have hfind := Option.map_injective (fun _ _ ↦ DevFound.device.inj) h
      exact of_decide_eq_true (hexact.mp hfind d hd)
    · rintro (h | ⟨-, h⟩)
      · exact absurd h hdots.1
      · exact congrArg _ (hexact.mpr fun d hd ↦ decide_eq_true (h d hd))

/-- **Which names are looked up right**, in the directories of every archive and in `dev_fs`. -/
theorem findDir_dots_iff {name : List Byte} (hname : ∀ c ∈ name, c ≠ 0) :
    (∀ (v : TarVolume) (inode : ℕ), (v.node inode).isDir = true →
      (v.findDir inode name = v.named inode name ↔
        name = dot ∨ (name.head? = some 0x2E ∧ v.named inode name = some (.node inode)) ∨
          name.head? ≠ some 0x2E ∧ ∀ child, (v.children inode).find? (fun child ↦
            (v.node child).name.take 256 = name.take 256) = some child →
              (v.node child).name = name)) ∧
    ∀ devices : List Device, (devFindDir devices name = devNamed devices name ↔
      name = dot ∨ name.head? ≠ some 0x2E ∧ ∀ d, devices.find? (fun d ↦
        d.instanceName.take 255 = name.take 255) = some d → d.instanceName = name) :=
  ⟨fun _ _ hdir ↦ TarVolume.tarFindDir_iff hdir hname, devFindDir_iff hname⟩

/-- An archive with a directory that has two files, `a` and `.a`. -/
def dottedVolume : TarVolume where
  nodeCount := 4
  state :=
    { mem := []
      nodes := fun inode ↦
        if inode = 0 then
          { TarNode.fresh with
            flags := fsNodeDirectory
            entryCount := 1
            children := ⟨1, fun _ ↦ 0, [(0, 1)]⟩ }
        else if inode = 1 then
          { TarNode.fresh with
            flags := fsNodeDirectory
            entryCount := 2
            children := ⟨2, fun _ ↦ 0, [(1, 3), (0, 2)]⟩
            name := [0x64]
            name_length := by decide
            name_ne_zero := by decide }
        else if inode = 2 then
          { TarNode.fresh with
            flags := fsNodeFile
            parent := 1
            name := [0x61]
            name_length := by decide
            name_ne_zero := by decide }
        else
          { TarNode.fresh with
            flags := fsNodeFile
            parent := 1
            name := [0x2E, 0x61]
            name_length := by decide
            name_ne_zero := by decide }
      nextNode := 4
      blocksRead := []
      inodes := [] }

/-- A device called `.a`. -/
def dottedDevice : Device := ⟨1, [0x2E, 0x61], by decide⟩

/-- `a` is found in the directory, and is not a device. -/
theorem findDir_dotted : dottedVolume.findDir 1 [0x61] = dottedVolume.named 1 [0x61] ∧
    devFindDir [dottedDevice] [0x61] = devNamed [dottedDevice] [0x61] :=
  ⟨((findDir_dots_iff (by decide)).1 dottedVolume 1 rfl).mpr
      (.inr (.inr ⟨by decide, fun child h ↦ by
        obtain rfl := Option.some.inj h
        rfl⟩)),
    ((findDir_dots_iff (by decide)).2 [dottedDevice]).mpr
      (.inr ⟨by decide, fun d h ↦ nomatch h⟩)⟩

/-- `..` and `.a` are the directory itself, in both. -/
theorem not_findDir_dotted : dottedVolume.findDir 1 dotDot ≠ dottedVolume.named 1 dotDot ∧
    dottedVolume.findDir 1 [0x2E, 0x61] ≠ dottedVolume.named 1 [0x2E, 0x61] ∧
    devFindDir [dottedDevice] dotDot ≠ devNamed [dottedDevice] dotDot ∧
    devFindDir [dottedDevice] [0x2E, 0x61] ≠ devNamed [dottedDevice] [0x2E, 0x61] :=
  ⟨by decide, by decide, by decide, by decide⟩

end Tar

end Borrrdex
