import Borrrdex.Fs.DotNames
import Borrrdex.Lib.Runs

/-!
# The directory of devices

`register_device` puts a device that has no parent behind the others in `root_devices` and counts
it, and `dev_fs::read_dir` finds the device for an index by a walk from the first one, with a
counter that begins at 2.  The counter is never advanced, so that the walk only ends where it
begins; to any other index it leads behind the last device, through a null pointer.

`readsEntry_iff` says which entries are read: `.`, `..`, the first device, and that there are no
more.
-/

set_option autoImplicit false

namespace Borrrdex

open Tar

namespace DevFs

/-- A device, and whether it has no parent. -/
structure RootOrChild extends Device where
  isRoot : Bool
deriving DecidableEq

/-- What `device_manager` keeps. -/
structure Registry where
  nextDevid : ℕ
  rootDevices : List RootOrChild
  rootDeviceCount : ℕ
  allDevices : List RootOrChild
  deviceCount : ℕ

/-- `register_device`, if the assertion of `set_device_id` holds. -/
def Registry.registerDevice (r : Registry) (d : RootOrChild) : Option Registry :=
  if d.id = 0 ∧ 0 < r.nextDevid then
    let d := { d with id := r.nextDevid }
    some
      { nextDevid := r.nextDevid + 1
        allDevices := r.allDevices ++ [d]
        deviceCount := r.deviceCount + 1
        rootDevices := if d.isRoot then r.rootDevices ++ [d] else r.rootDevices
        rootDeviceCount := if d.isRoot then r.rootDeviceCount + 1 else r.rootDeviceCount }
  else none

/-- Nothing is registered at first. -/
def Registry.empty : Registry where
  nextDevid := 1
  rootDevices := []
  rootDeviceCount := 0
  allDevices := []
  deviceCount := 0

/-- One device after the other is registered. -/
def registering : Machine Registry RootOrChild where
  initial r := r = .empty
  step r d := r.registerDevice d

/-- A `directory_entry`, the bytes of its name and its flags. -/
structure DirectoryEntry where
  name : List Byte
  flags : ℕ

/-- `set_name`: `strncpy(_name, name, NAME_MAX)`, into the 255 bytes that there are. -/
def DirectoryEntry.setName (e : DirectoryEntry) (name : List Byte) : DirectoryEntry :=
  { e with name := name.take 255 ++ List.replicate (255 - name.length) 0 }

/-- Its name is this one: it begins with it, and a null ends it. -/
def DirectoryEntry.Named (e : DirectoryEntry) (name : List Byte) : Prop :=
  name ++ [0] <+: e.name

/-- `FS_NODE_DIRECTORY`. -/
def fsNodeDirectory : ℕ := 0x4000

/-- `while(i < index) item = item->hook.next;`, unless it gets to a null pointer.  An item is given
by the devices from it on. -/
def walk (i index : ℕ) : List RootOrChild → Option (List RootOrChild)
  | [] => if i < index then none else some []
  | item :: items => if i < index then walk i index items else some (item :: items)

/-- `dev_fs::read_dir`, if it gets to its end. -/
def Registry.readDir (r : Registry) (dirEnt : DirectoryEntry) (index : U32) :
    Option (ℕ × DirectoryEntry) :=
  if r.rootDeviceCount + 2 ≤ index.toNat then some (0, dirEnt)
  else if index = 0 then some (1, { dirEnt.setName dot with flags := fsNodeDirectory })
  else if index = 1 then some (1, { dirEnt.setName dotDot with flags := fsNodeDirectory })
  else
    match walk 2 index.toNat r.rootDevices with
    | some (item :: _) => some (1, dirEnt.setName item.instanceName)
    | _ => none

/-! ## What should be read -/

/-- The names that there are, in their order. -/
def Registry.entryNames (r : Registry) : List (List Byte) :=
  dot :: dotDot :: r.rootDevices.map fun d ↦ d.instanceName

/-- The entry for an index is read, or that there is none. -/
def Registry.ReadsEntry (r : Registry) (index : U32) : Prop :=
  ∀ dirEnt, match r.entryNames[index.toNat]? with
    | some name => ∃ entry, r.readDir dirEnt index = some (1, entry) ∧ entry.Named name
    | none => ∃ entry, r.readDir dirEnt index = some (0, entry)

/-! ## The registry -/

variable {r r' : Registry} {d : RootOrChild}

/-- The devices are counted. -/
structure Registry.Counted (r : Registry) : Prop where
  root : r.rootDeviceCount = r.rootDevices.length
  all : r.deviceCount = r.allDevices.length
  devid : 0 < r.nextDevid

theorem counted_registerDevice (h : r.Counted) (hr : r.registerDevice d = some r') :
    r'.Counted := by
  rw [Registry.registerDevice] at hr
  split at hr
  · cases hr
    refine ⟨?_, ?_, Nat.succ_pos _⟩
    · dsimp only
      split
      · rw [List.length_append, List.length_singleton, h.root]
      · exact h.root
    · rw [List.length_append, List.length_singleton, h.all]
  · cases hr

theorem counted_of_reaches (h : registering.Reaches (fun _ _ ↦ True) r) : r.Counted := by
  refine h.invariant ?_ fun r d r' hr _ hstep ↦ counted_registerDevice hr hstep
  rintro r rfl
  exact ⟨rfl, rfl, Nat.one_pos⟩

/-! ## The walk -/

/-- The walk ends at once or not at all. -/
theorem walk_eq (i index : ℕ) (items : List RootOrChild) :
    walk i index items = if i < index then none else some items := by
  induction items with
  | nil => rfl
  | cons item items ih =>
    rw [walk]
    split
    · next hlt => rw [ih, if_pos hlt]
    · rfl

/-! ## Names -/

theorem named_setName_iff (e : DirectoryEntry) (d : Device) :
    (e.setName d.instanceName).Named d.instanceName ↔ d.instanceName.length < 255 := by
  rw [DirectoryEntry.Named, DirectoryEntry.setName]
  constructor
  · intro h
    have hlen := h.length_le
    simp only [List.length_append, List.length_singleton, List.length_take,
      List.length_replicate] at hlen
    omega
  · intro hlt
    obtain ⟨k, hk⟩ := Nat.exists_eq_add_of_lt hlt
    have hpad : 255 - d.instanceName.length = k + 1 := by omega
    rw [List.take_of_length_le hlt.le, hpad, List.replicate_succ, List.prefix_append_right_inj]
    exact ⟨_, rfl⟩

/-! ## The entries that are read -/

theorem entryNames_length (r : Registry) : r.entryNames.length = r.rootDevices.length + 2 := by
  rw [Registry.entryNames, List.length_cons, List.length_cons, List.length_map]

/-- Behind the last entry there are no more. -/
theorem readsEntry_of_le (hr : r.Counted) {index : U32}
    (hle : r.rootDevices.length + 2 ≤ index.toNat) : r.ReadsEntry index := by
  intro dirEnt
  rw [List.getElem?_eq_none (by rw [entryNames_length]; exact hle)]
  exact ⟨dirEnt, by rw [Registry.readDir, hr.root, if_pos hle]⟩

theorem readsEntry_zero (hr : r.Counted) : r.ReadsEntry 0 := fun dirEnt ↦
  ⟨{ dirEnt.setName dot with flags := fsNodeDirectory },
    by rw [Registry.readDir, hr.root, if_neg (by simp), if_pos rfl], ⟨_, rfl⟩⟩

theorem readsEntry_one (hr : r.Counted) : r.ReadsEntry 1 := fun dirEnt ↦
  ⟨{ dirEnt.setName dotDot with flags := fsNodeDirectory },
    by rw [Registry.readDir, hr.root, if_neg (by simp), if_neg (by decide), if_pos rfl], ⟨_, rfl⟩⟩

/-- From the third entry on there is the walk. -/
theorem readDir_eq_walk (hr : r.Counted) {index : U32} (hge : 2 ≤ index.toNat)
    (hlt : index.toNat < r.rootDevices.length + 2) (dirEnt : DirectoryEntry) :
    r.readDir dirEnt index = if 2 < index.toNat then none
      else r.rootDevices.head?.map fun d ↦ (1, dirEnt.setName d.instanceName) := by
  have hzero : index ≠ 0 := by
    rintro rfl
    exact absurd hge (by decide)
  have hone : index ≠ 1 := by
    rintro rfl
    exact absurd hge (by decide)
  rw [Registry.readDir, hr.root, if_neg (by omega), if_neg hzero, if_neg hone, walk_eq]
  by_cases hgt : 2 < index.toNat
  · rw [if_pos hgt, if_pos hgt]
  · rw [if_neg hgt, if_neg hgt]
    cases r.rootDevices <;> rfl

/-- The third is that of the first device. -/
theorem readsEntry_two_iff (hr : r.Counted) (hpos : 0 < r.rootDevices.length) :
    r.ReadsEntry 2 ↔ ∀ d ∈ r.rootDevices.head?, d.instanceName.length < 255 := by
  obtain ⟨d, ds, hds⟩ := List.exists_cons_of_length_pos hpos
  have hname : r.entryNames[(2 : U32).toNat]? = some d.instanceName := by
    rw [Registry.entryNames, hds]
    rfl
  have hread : ∀ dirEnt, r.readDir dirEnt 2 = some (1, dirEnt.setName d.instanceName) := by
    intro dirEnt
    rw [readDir_eq_walk hr le_rfl (by rw [show (2 : U32).toNat = 2 from rfl]; omega), hds]
    rfl
  rw [hds, List.head?_cons, Registry.ReadsEntry]
  simp only [hname, hread, Option.some.injEq, Prod.mk.injEq, true_and, exists_eq_left',
    named_setName_iff, Option.mem_def, forall_eq']
  exact ⟨fun hroom ↦ hroom ⟨[], 0⟩, fun hroom _ ↦ hroom⟩

/-- Any other is not read. -/
theorem not_readsEntry (hr : r.Counted) {index : U32} (hgt : 2 < index.toNat)
    (hlt : index.toNat < r.rootDevices.length + 2) : ¬ r.ReadsEntry index := by
  intro h
  have hread := h ⟨[], 0⟩
  rw [readDir_eq_walk hr hgt.le hlt, if_pos hgt] at hread
  split at hread <;> simp at hread

/-- **Which entries `read_dir` reads**: the first three, if the name of the first device has room,
and that there are no more. -/
theorem readsEntry_iff (h : registering.Reaches (fun _ _ ↦ True) r) (index : U32) :
    r.ReadsEntry index ↔ index.toNat ≤ 1 ∨ r.rootDevices.length + 2 ≤ index.toNat ∨
      index.toNat = 2 ∧ ∀ d ∈ r.rootDevices.head?, d.instanceName.length < 255 := by
  have hr := counted_of_reaches h
  have heq : ∀ n, index.toNat = n → index = BitVec.ofNat 32 n := fun n hn ↦ by
    rw [← hn, BitVec.ofNat_toNat, BitVec.setWidth_eq]
  rcases Nat.lt_or_ge index.toNat (r.rootDevices.length + 2) with hlt | hge
  · rcases Nat.lt_or_ge 2 index.toNat with hgt | hle
    · exact iff_of_false (not_readsEntry hr hgt hlt) (by omega)
    · rcases Nat.lt_or_ge index.toNat 2 with hsmall | htwo
      · refine iff_of_true ?_ (.inl (by omega))
        rcases Nat.lt_or_ge index.toNat 1 with hzero | hone
        · rw [heq 0 (by omega)]
          exact readsEntry_zero hr
        · rw [heq 1 (by omega)]
          exact readsEntry_one hr
      · have hindex : index.toNat = 2 := by omega
        rw [hindex, heq 2 hindex]
        refine (readsEntry_two_iff hr (by omega)).trans ⟨fun hroom ↦ .inr (.inr ⟨rfl, hroom⟩), ?_⟩
        rintro (hsmall | hlarge | ⟨-, hroom⟩)
        · omega
        · omega
        · exact hroom
  · exact iff_of_true (readsEntry_of_le hr hge) (.inr (.inl hge))

/-! ## Two devices -/

theorem nullName_ne_zero : ∀ c ∈ ([0x6E, 0x75, 0x6C, 0x6C] : List Byte), c ≠ 0 := by decide

theorem letterName_ne_zero : ∀ c ∈ ([0x61] : List Byte), c ≠ 0 := by decide

/-- `null`, and a device whose name is a letter. -/
def twoDevices : List RootOrChild :=
  [⟨⟨0, [0x6E, 0x75, 0x6C, 0x6C], nullName_ne_zero⟩, true⟩, ⟨⟨0, [0x61], letterName_ne_zero⟩, true⟩]

/-- Both are registered. -/
def twoRegistered : Registry where
  nextDevid := 3
  rootDevices := [⟨⟨1, [0x6E, 0x75, 0x6C, 0x6C], nullName_ne_zero⟩, true⟩,
    ⟨⟨2, [0x61], letterName_ne_zero⟩, true⟩]
  rootDeviceCount := 2
  allDevices := [⟨⟨1, [0x6E, 0x75, 0x6C, 0x6C], nullName_ne_zero⟩, true⟩,
    ⟨⟨2, [0x61], letterName_ne_zero⟩, true⟩]
  deviceCount := 2

theorem twoRegistered_reached : registering.Reaches (fun _ _ ↦ True) twoRegistered := by
  have hempty : registering.Reaches (fun _ _ ↦ True) .empty := .initial rfl
  have hmoves : ∀ m ∈ twoDevices, ∀ _s : Registry, True := fun _ _ _ ↦ trivial
  exact hempty.foldlM hmoves rfl

/-- The second one is not read. -/
theorem not_readsEntry_three :
    registering.Reaches (fun _ _ ↦ True) twoRegistered ∧ ¬ twoRegistered.ReadsEntry 3 :=
  ⟨twoRegistered_reached,
    not_readsEntry (counted_of_reaches twoRegistered_reached) (by decide) (by decide)⟩

/-- The first one is. -/
theorem readsEntry_iff_two : twoRegistered.ReadsEntry 2 :=
  (readsEntry_iff twoRegistered_reached 2).mpr (.inr (.inr ⟨rfl, by
    intro d hd
    cases hd
    decide⟩))

end DevFs

end Borrrdex
