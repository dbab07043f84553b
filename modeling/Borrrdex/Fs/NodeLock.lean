import Borrrdex.Kstd.ReadWriteLock
import Borrrdex.Storage.AhciPort

/-!
# The lock of an ext2 node

Every operation of an `ext2_node` takes the node's `_flock`, a `read_write_lock`, makes one call to
the volume and gives the lock back.  Five of the ten do not give it back: where `create`,
`create_dir`, `link`, `unlink` and `truncate` should release the write lock they acquire it again,
and spin on what they hold themselves.

Operations are issued one after another here, so a lock is what it has in memory, and an acquire
that finds it taken tries for as long as it likes.  `ReadWriteLock` has the same lock with any
number of threads; `acquireRead_run` and `acquireWrite_run` say that what one thread does here is a
run there.
-/

set_option autoImplicit false

universe u

namespace Borrrdex

/-- The memory of a `read_write_lock`. -/
structure LockWords where
  readLock : Bool
  writeLock : Bool
  activeReaders : U32
deriving DecidableEq

namespace LockWords

/-- A lock as it is constructed: no reader, and the write lock free. -/
def free : LockWords := ⟨false, false, 0⟩

/-- `acquire_lock`, given up after some number of tries. -/
def acquireLock : ℕ → Bool → Option Bool
  | 0, _ => none
  | tries + 1, lock => if acquireTestLock lock then some true else acquireLock tries true

/-- `acquire_write`. -/
def acquireWrite (tries : ℕ) (w : LockWords) : Option LockWords := do
  let writeLock ← acquireLock tries w.writeLock
  some { w with writeLock := writeLock }

/-- `acquire_read`. -/
def acquireRead (tries : ℕ) (w : LockWords) : Option LockWords := do
  let readLock ← acquireLock tries w.readLock
  let w := { w with readLock := readLock, activeReaders := w.activeReaders + 1 }
  let w ← if w.activeReaders = 1 then w.acquireWrite tries else some w
  some { w with readLock := false }

/-- `release_read`. -/
def releaseRead (w : LockWords) : LockWords :=
  let w := { w with activeReaders := w.activeReaders - 1 }
  if w.activeReaders = 0 then { w with writeLock := false } else w

/-- A lock that is held and that nobody gives back is never acquired. -/
theorem acquireLock_held (tries : ℕ) : acquireLock tries true = none := by
  induction tries with
  | zero => rfl
  | succ tries ih => rw [acquireLock, acquireTestLock, if_neg (by decide), ih]

/-- An acquire that returns found the lock free, and has it. -/
theorem acquireLock_eq_some {tries : ℕ} {lock lock' : Bool}
    (h : acquireLock tries lock = some lock') : lock = false ∧ lock' = true := by
  cases lock with
  | true => rw [acquireLock_held] at h; cases h
  | false =>
    cases tries with
    | zero => cases h
    | succ tries => exact ⟨rfl, (Option.some.inj h).symm⟩

theorem acquireWrite_eq_some {tries : ℕ} {w w' : LockWords} (h : w.acquireWrite tries = some w') :
    w.writeLock = false ∧ w' = { w with writeLock := true } := by
  obtain ⟨lock, hlock, h⟩ := Option.bind_eq_some_iff.mp h
  obtain rfl := Option.some.inj h
  obtain ⟨hfree, rfl⟩ := acquireLock_eq_some hlock
  exact ⟨hfree, rfl⟩

/-! ## One thread among others -/

section

variable {T : Type u} [DecidableEq T]

/-- The lock with the points where its threads are. -/
def withPoints (w : LockWords) (point : T → ReadWriteLock.Point) : ReadWriteLock T :=
  ⟨w.readLock, w.writeLock, w.activeReaders, point⟩

/-- **An `acquire_write` that returns is a run** of the lock in which only the caller moves. -/
theorem acquireWrite_run {tries : ℕ} {w w' : LockWords} (h : w.acquireWrite tries = some w')
    (point : T → ReadWriteLock.Point) {t : T} (ht : point t = .outside) :
    (w.withPoints point).run (List.replicate 2 (t, .acquireWrite)) =
      w'.withPoints (Function.update point t .writing) := by
  obtain ⟨hfree, rfl⟩ := acquireWrite_eq_some h
  simp [ReadWriteLock.run, ReadWriteLock.step, ReadWriteLock.goto, withPoints, ht, hfree,
    acquireTestLock]

/-- **An `acquire_read` that returns is a run** of the lock in which only the caller moves. -/
theorem acquireRead_run {tries : ℕ} {w w' : LockWords} (h : w.acquireRead tries = some w')
    (point : T → ReadWriteLock.Point) {t : T} (ht : point t = .outside) :
    ∃ n, (w.withPoints point).run (List.replicate n (t, .acquireRead)) =
      w'.withPoints (Function.update point t .reading) := by
  obtain ⟨readLock, writeLock, activeReaders⟩ := w
  obtain ⟨lock, hlock, h⟩ := Option.bind_eq_some_iff.mp h
  obtain ⟨rfl, rfl⟩ := acquireLock_eq_some hlock
  by_cases hzero : activeReaders = 0
  · subst hzero
    obtain ⟨_, hwrite, h⟩ := Option.bind_eq_some_iff.mp h
    obtain rfl := Option.some.inj h
    obtain ⟨hfree, rfl⟩ := acquireWrite_eq_some hwrite
    obtain rfl : writeLock = false := hfree
    exact ⟨5, by simp [ReadWriteLock.run, ReadWriteLock.step, ReadWriteLock.goto, withPoints, ht,
      acquireTestLock]⟩
  · have hmore : ¬ activeReaders + 1 = 1 := by bv_omega
    simp only [hmore, if_false] at h
    obtain rfl := Option.some.inj h
    exact ⟨4, ReadWriteLock.run_enter ht rfl hzero⟩

end

end LockWords

/-! ## The operations -/

/-- What an `ext2_node` is asked to do.  Of the arguments only the inode number of the node to be
linked is looked at before the call to the volume. -/
inductive NodeOp
  | readDir
  | findDir
  | read
  | write
  | create
  | createDir
  | readLink
  | link (inode : U64)
  | unlink
  | truncate

namespace NodeLock

open LockWords

/-- A call to the volume between `acquire_read` and `release_read`.  It returns `ret`. -/
def underRead (tries : ℕ) (ret : ℤ) (w : LockWords) : Option (ℤ × LockWords) := do
  let w ← w.acquireRead tries
  some (ret, w.releaseRead)

/-- A call to the volume between `acquire_write` and `acquire_write`. -/
def underWrite (tries : ℕ) (ret : ℤ) (w : LockWords) : Option (ℤ × LockWords) := do
  let w ← w.acquireWrite tries
  let w ← w.acquireWrite tries
  some (ret, w)

/-- `ext2_node::read_dir`. -/
def readDir := underRead

/-- `ext2_node::find_dir`. -/
def findDir := underRead

/-- `ext2_node::read`. -/
def read := underRead

/-- `ext2_node::write`, which takes the lock as a reader. -/
def write := underRead

/-- `ext2_node::create`. -/
def create := underWrite

/-- `ext2_node::create_dir`. -/
def createDir := underWrite

/-- `ext2_node::read_link`. -/
def readLink := underRead

/-- `ext2_node::link`. -/
def link (errno : Errno) (inode : U64) (tries : ℕ) (ret : ℤ) (w : LockWords) :
    Option (ℤ × LockWords) :=
  if inode = 0 then some (-errno.einval, w) else underWrite tries ret w

/-- `ext2_node::unlink`. -/
def unlink := underWrite

/-- `ext2_node::truncate`. -/
def truncate := underWrite

/-- An operation, for which the volume returns `ret`. -/
def perform (errno : Errno) : NodeOp → ℕ → ℤ → LockWords → Option (ℤ × LockWords)
  | .readDir => readDir
  | .findDir => findDir
  | .read => read
  | .write => write
  | .create => create
  | .createDir => createDir
  | .readLink => readLink
  | .link inode => link errno inode
  | .unlink => unlink
  | .truncate => truncate

/-- Operations issued one after another, with what the volume returns for each. -/
def run (errno : Errno) (tries : ℕ) (calls : List (NodeOp × ℤ)) (w : LockWords) :
    Option LockWords :=
  calls.foldlM (fun w call ↦ (perform errno call.1 tries call.2 w).map Prod.snd) w

/-- **Every operation completes and leaves the lock free**, from a node just made. -/
def Balanced (errno : Errno) (calls : List (NodeOp × ℤ)) : Prop :=
  ∀ past, past <+: calls → ∃ tries, run errno tries past free = some free

end NodeLock

/-- The operation gives back what it takes: it reads, or it takes nothing. -/
def NodeOp.Releases : NodeOp → Prop
  | .readDir | .findDir | .read | .write | .readLink => True
  | .link inode => inode = 0
  | .create | .createDir | .unlink | .truncate => False

namespace NodeLock

open LockWords

/-! ## Balance -/

theorem underRead_free (tries : ℕ) (ret : ℤ) : underRead (tries + 1) ret free = some (ret, free) :=
  rfl

/-- **A lock acquired twice for writing is never got.** -/
theorem underWrite_eq_none (tries : ℕ) (ret : ℤ) (w : LockWords) :
    underWrite tries ret w = none := by
  refine Option.bind_eq_none_iff.mpr fun w' h ↦ ?_
  obtain ⟨-, rfl⟩ := acquireWrite_eq_some h
  rw [acquireWrite, acquireLock_held]
  rfl

theorem perform_of_releases (errno : Errno) {op : NodeOp} (h : op.Releases) (tries : ℕ) (ret : ℤ) :
    ∃ ret', perform errno op (tries + 1) ret free = some (ret', free) := by
  cases op with
  | readDir | findDir | read | write | readLink => exact ⟨ret, underRead_free tries ret⟩
  | link inode => exact ⟨-errno.einval, if_pos h⟩
  | create | createDir | unlink | truncate => exact h.elim

theorem perform_of_not_releases (errno : Errno) {op : NodeOp} (h : ¬ op.Releases) (tries : ℕ)
    (ret : ℤ) (w : LockWords) : perform errno op tries ret w = none := by
  cases op with
  | readDir | findDir | read | write | readLink => exact absurd trivial h
  | link inode => exact (if_neg h).trans (underWrite_eq_none tries ret w)
  | create | createDir | unlink | truncate => exact underWrite_eq_none tries ret w

/-- Operations that give the lock back complete with one try for each acquire. -/
theorem run_of_releases (errno : Errno) {calls : List (NodeOp × ℤ)}
    (h : ∀ call ∈ calls, call.1.Releases) : run errno 1 calls free = some free := by
  induction calls with
  | nil => rfl
  | cons call calls ih =>
    obtain ⟨hcall, hcalls⟩ := List.forall_mem_cons.mp h
    obtain ⟨ret', hret⟩ := perform_of_releases errno hcall 0 call.2
    rw [run, List.foldlM_cons, hret]
    exact ih hcalls

/-- The first operation that does not give the lock back is the last one. -/
theorem run_eq_none (errno : Errno) {calls : List (NodeOp × ℤ)} {call : NodeOp × ℤ}
    (hmem : call ∈ calls) (h : ¬ call.1.Releases) (tries : ℕ) (w : LockWords) :
    run errno tries calls w = none := by
  induction calls generalizing w with
  | nil => exact absurd hmem List.not_mem_nil
  | cons first calls ih =>
    rw [run, List.foldlM_cons]
    obtain rfl | hmem := List.mem_cons.mp hmem
    · rw [perform_of_not_releases errno h]
      rfl
    · refine Option.bind_eq_none_iff.mpr fun w' _ ↦ ?_
      exact ih hmem w'

/-- **Which sequences of operations are balanced**: those of `read_dir`, `find_dir`, `read`,
`write`, `read_link`, and of `link` for a node without an inode. -/
theorem balanced_iff (errno : Errno) (calls : List (NodeOp × ℤ)) :
    Balanced errno calls ↔ ∀ call ∈ calls, call.1.Releases := by
  constructor
  · intro h call hmem
    by_contra hcall
    obtain ⟨tries, hrun⟩ := h calls List.prefix_rfl
    rw [run_eq_none errno hmem hcall] at hrun
    cases hrun
  · intro h past hpast
    exact ⟨1, run_of_releases errno fun call hcall ↦ h call (hpast.subset hcall)⟩

/-- A `truncate`, which the volume refuses with `-ENOSYS`: it does not complete. -/
theorem not_balanced_truncate :
    ¬ Balanced ⟨4, 16, 22, by decide, by decide, by decide⟩ [(.truncate, -38)] := by
  intro h
  obtain ⟨tries, hrun⟩ := h _ List.prefix_rfl
  rw [run_eq_none _ List.mem_cons_self id] at hrun
  cases hrun

end NodeLock

end Borrrdex
