import Borrrdex.Proc.DescriptorCalls
import Borrrdex.Syscalls.UserStores

/-!
# The ids of a process

`sys_setuid`, `sys_setgid`, `sys_seteuid` and `sys_setegid` are the calls that change an id.  A
process without privileges can only go back and forth between the effective ids it started with and
its real ones, whatever it asks for and in whatever order, and a superuser that has become somebody
else stays so.

What carries the second part is that `sys_setuid` sets both user ids: a process that comes from the
superuser is never left with an effective id of 0 under a real one that is not (`Rooted`).
-/

set_option autoImplicit false

namespace Borrrdex

open Handlers

variable {κ : Type}

/-- The four calls. -/
inductive IdCall
  | setuid | setgid | seteuid | setegid

/-- What runs for a call. -/
def IdCall.handler (abi : SysAbi) (regs : RegisterContext) : IdCall → Kern κ ℤ
  | .setuid => sysSetuid abi regs
  | .setgid => sysSetgid abi regs
  | .seteuid => sysSeteuid abi regs
  | .setegid => sysSetegid abi regs

/-- The id that is asked for: the low half of the register. -/
def requestedId (regs : RegisterContext) : U32 := (scArg0 regs).setWidth 32

/-- The kernel after the calls, one after the other. -/
def afterCalls (abi : SysAbi) (calls : List (IdCall × RegisterContext)) (s : KernelState κ) :
    KernelState κ :=
  calls.foldl (fun s call ↦ (call.1.handler abi call.2 s).2) s

/-! ## What the calls do -/

section Calls

variable (abi : SysAbi) (regs : RegisterContext) (s : KernelState κ)

theorem sysSetId_eq (id : Process → U32) (assign : U32 → Process → Process) :
    sysSetId abi regs id assign s =
      if id s.proc = requestedId regs then (0, s)
      else if s.proc.euid ≠ 0 then (abi.fail .eperm, s)
      else (0, { s with proc := assign (requestedId regs) s.proc }) := by
  unfold sysSetId
  rw [Kern.run_bind, Kern.run_get, Kern.run_ite, Kern.run_ite]
  rfl

theorem sysSetEffectiveId_eq (effective real : Process → U32)
    (assign : U32 → Process → Process) :
    sysSetEffectiveId abi regs effective real assign s =
      if effective s.proc = requestedId regs then (0, s)
      else if s.proc.uid ≠ 0 ∧ real s.proc ≠ requestedId regs then (abi.fail .eperm, s)
      else (0, { s with proc := assign (requestedId regs) s.proc }) := by
  unfold sysSetEffectiveId
  rw [Kern.run_bind, Kern.run_get, Kern.run_ite, Kern.run_ite]
  rfl

/-- `sys_setuid` and `sys_setgid` change something for the superuser only. -/
theorem sysSetId_cases (id : Process → U32) (assign : U32 → Process → Process) :
    (sysSetId abi regs id assign s).2 = s ∨ s.proc.euid = 0 ∧
      (sysSetId abi regs id assign s).2 =
        { s with proc := assign (requestedId regs) s.proc } := by
  rw [sysSetId_eq]
  split
  · exact .inl rfl
  · split
    · exact .inl rfl
    · next h => exact .inr ⟨not_not.mp h, rfl⟩

/-- `sys_seteuid` and `sys_setegid` change something for the superuser, or to the real id. -/
theorem sysSetEffectiveId_cases (effective real : Process → U32)
    (assign : U32 → Process → Process) :
    (sysSetEffectiveId abi regs effective real assign s).2 = s ∨
      (s.proc.uid = 0 ∨ requestedId regs = real s.proc) ∧
        (sysSetEffectiveId abi regs effective real assign s).2 =
          { s with proc := assign (requestedId regs) s.proc } := by
  rw [sysSetEffectiveId_eq]
  split
  · exact .inl rfl
  · split
    · exact .inl rfl
    · next h =>
      rw [not_and_or, not_not, not_not] at h
      exact .inr ⟨h.imp_right Eq.symm, rfl⟩

end Calls

/-! ## A process without privileges -/

/-- Of the ids in `p`, the real ones are those of `start`, and the effective ones are those or the
real ones. -/
structure Process.IdsOf (start p : Process) : Prop where
  uid : p.uid = start.uid
  gid : p.gid = start.gid
  euid : p.euid = start.euid ∨ p.euid = start.uid
  egid : p.egid = start.egid ∨ p.egid = start.gid

/-- A process that was the superuser: if it has become somebody else, it has done so with both user
ids. -/
def Process.Rooted (p : Process) : Prop := p.uid ≠ 0 → p.euid ≠ 0

namespace IdCall

variable {abi : SysAbi} {regs : RegisterContext} {s : KernelState κ} {start : Process}

/-- A call without privileges. -/
theorem idsOf_handler (call : IdCall) (hp : start.IdsOf s.proc) (huid : start.uid ≠ 0)
    (heuid : start.euid ≠ 0) : start.IdsOf (call.handler abi regs s).2.proc := by
  have hs : s.proc.uid ≠ 0 := hp.uid.trans_ne huid
  have hes : s.proc.euid ≠ 0 := by
    obtain h | h := hp.euid
    · exact h.trans_ne heuid
    · exact h.trans_ne huid
  cases call with
  | setuid =>
    obtain h | ⟨h, -⟩ := sysSetId_cases abi regs s _ _
    · rwa [handler, sysSetuid, h]
    · exact absurd h hes
  | setgid =>
    obtain h | ⟨h, -⟩ := sysSetId_cases abi regs s _ _
    · rwa [handler, sysSetgid, h]
    · exact absurd h hes
  | seteuid =>
    obtain h | ⟨hreq | hreq, h⟩ := sysSetEffectiveId_cases abi regs s _ _ _
    · rwa [handler, sysSeteuid, h]
    · exact absurd hreq hs
    · rw [handler, sysSeteuid, h]
      exact ⟨hp.uid, hp.gid, .inr (hreq.trans hp.uid), hp.egid⟩
  | setegid =>
    obtain h | ⟨hreq | hreq, h⟩ := sysSetEffectiveId_cases abi regs s _ _ _
    · rwa [handler, sysSetegid, h]
    · exact absurd hreq hs
    · rw [handler, sysSetegid, h]
      exact ⟨hp.uid, hp.gid, hp.euid, .inr (hreq.trans hp.gid)⟩

/-- A call of a process that was the superuser. -/
theorem rooted_handler (call : IdCall) (hp : s.proc.Rooted) :
    (call.handler abi regs s).2.proc.Rooted := by
  cases call with
  | setuid =>
    obtain h | ⟨-, h⟩ := sysSetId_cases abi regs s _ _
    · rwa [handler, sysSetuid, h]
    · rw [handler, sysSetuid, h]
      exact id
  | setgid =>
    obtain h | ⟨-, h⟩ := sysSetId_cases abi regs s _ _
    · rwa [handler, sysSetgid, h]
    · rw [handler, sysSetgid, h]
      exact hp
  | seteuid =>
    obtain h | ⟨hreq | hreq, h⟩ := sysSetEffectiveId_cases abi regs s _ _ _
    · rwa [handler, sysSeteuid, h]
    · rw [handler, sysSeteuid, h]
      exact fun hne ↦ absurd hreq hne
    · rw [handler, sysSeteuid, h]
      exact fun hne ↦ hreq.trans_ne hne
  | setegid =>
    obtain h | ⟨-, h⟩ := sysSetEffectiveId_cases abi regs s _ _ _
    · rwa [handler, sysSetegid, h]
    · rw [handler, sysSetegid, h]
      exact hp

end IdCall

section Run

variable (abi : SysAbi) {s : KernelState κ}

theorem idsOf_afterCalls (calls : List (IdCall × RegisterContext)) {start : Process}
    (hp : start.IdsOf s.proc) (huid : start.uid ≠ 0) (heuid : start.euid ≠ 0) :
    start.IdsOf (afterCalls abi calls s).proc := by
  induction calls generalizing s with
  | nil => exact hp
  | cons call calls ih => exact ih (call.1.idsOf_handler hp huid heuid)

theorem rooted_afterCalls (calls : List (IdCall × RegisterContext)) (hp : s.proc.Rooted) :
    (afterCalls abi calls s).proc.Rooted := by
  induction calls generalizing s with
  | nil => exact hp
  | cons call calls ih => exact ih (call.1.rooted_handler hp)

/-- A `sys_setuid` that succeeds leaves the real id as it was asked for. -/
theorem uid_sysSetuid {regs : RegisterContext} (h : (sysSetuid abi regs s).1 = 0) :
    (sysSetuid abi regs s).2.proc.uid = requestedId regs := by
  rw [sysSetuid, sysSetId_eq] at h ⊢
  by_cases huid : s.proc.uid = requestedId regs
  · rw [if_pos huid]
    exact huid
  · rw [if_neg huid] at h ⊢
    by_cases heuid : s.proc.euid = 0
    · rw [if_neg (not_not.mpr heuid)]
    · have hpos := abi.errno_pos .eperm
      rw [if_pos heuid, SysAbi.fail] at h
      omega

/-- **No privilege escalation**, over all sequences of calls: without privileges, the real ids stay
and the effective ones are those of the start or the real ones; and a superuser that has set its
user id to another one is the superuser no more. -/
theorem no_privilege_escalation (abi : SysAbi) (s : KernelState κ) :
    (∀ calls, s.proc.uid ≠ 0 → s.proc.euid ≠ 0 →
      s.proc.IdsOf (afterCalls abi calls s).proc) ∧
    (∀ before regs after, s.proc.uid = 0 → s.proc.euid = 0 → s.proc.gid = 0 → s.proc.egid = 0 →
      (sysSetuid abi regs (afterCalls abi before s)).1 = 0 → requestedId regs ≠ 0 →
      (afterCalls abi (before ++ (.setuid, regs) :: after) s).proc.uid ≠ 0 ∧
      (afterCalls abi (before ++ (.setuid, regs) :: after) s).proc.euid ≠ 0) := by
  constructor
  · intro calls huid heuid
    exact idsOf_afterCalls abi calls ⟨rfl, rfl, .inl rfl, .inl rfl⟩ huid heuid
  · intro before regs after huid _ _ _ hsuccess hreq
    have hrooted : s.proc.Rooted := fun hne ↦ absurd huid hne
    have hset : (sysSetuid abi regs (afterCalls abi before s)).2.proc.uid ≠ 0 :=
      (uid_sysSetuid abi hsuccess).trans_ne hreq
    have hset' : (sysSetuid abi regs (afterCalls abi before s)).2.proc.euid ≠ 0 :=
      IdCall.setuid.rooted_handler (rooted_afterCalls abi before hrooted) hset
    have hafter : afterCalls abi (before ++ (.setuid, regs) :: after) s =
        afterCalls abi after (sysSetuid abi regs (afterCalls abi before s)).2 := by
      rw [afterCalls, List.foldl_append, List.foldl_cons]
      rfl
    rw [hafter]
    have hids := idsOf_afterCalls abi after ⟨rfl, rfl, .inl rfl, .inl rfl⟩ hset hset'
    refine ⟨hids.uid.trans_ne hset, ?_⟩
    obtain h | h := hids.euid
    · exact h.trans_ne hset'
    · exact h.trans_ne hset

end Run

/-- A process with four times the same id. -/
def kernelOf (id : U32) : KernelState Unit where
  proc := { uid := id, gid := id, euid := id, egid := id, pid := 1, parent := none }
  handles _ := { node := 0, pos := 0, mode := 0 }
  nodes _ := { inode := 0, uid := 0, size := 0, flags := 0 }
  fsBase := 0
  rest := ()

/-- The user 1000 asks for 0, and the superuser becomes the user 1000 and then asks for 0. -/
theorem user_stays_user :
    (kernelOf 1000).proc.IdsOf
      (afterCalls librarySysAbi [(.seteuid, ⟨0, 0, 0, 0⟩)] (kernelOf 1000)).proc ∧
    (afterCalls librarySysAbi [(.setuid, ⟨1000, 0, 0, 0⟩), (.setuid, ⟨0, 0, 0, 0⟩)]
      (kernelOf 0)).proc.uid ≠ 0 :=
  ⟨(no_privilege_escalation librarySysAbi (kernelOf 1000)).1 _ (by decide) (by decide),
    ((no_privilege_escalation librarySysAbi (kernelOf 0)).2 [] ⟨1000, 0, 0, 0⟩ _ rfl rfl rfl rfl
      rfl (by decide)).1⟩

end Borrrdex
