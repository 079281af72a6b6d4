/-
**Switching between two user ids** (`assignment_7/game.c`).

A process that was started with a real user id `ruid` and an effective one `euid` switches between
the two with `undo_setuid` and `do_setuid`.  Each exists in two variants, of which one is compiled:
`seteuid` where the kernel keeps saved ids, `setreuid` with the two ids swapped elsewhere.  The
second variant also moves the real and the saved id about; what keeps the next switch permitted is
that after every call the credentials are one of two triples, which depend on the call only
(`PrivilegeSwitch.after`).

Main definitions:

* `PrivilegeSwitch.seteuid`, `PrivilegeSwitch.setreuid` — the system calls;
* `PrivilegeSwitch.undo_setuid`, `PrivilegeSwitch.do_setuid` — the two functions, in either variant;
* `PrivilegeSwitch.run` — a sequence of calls to them;
* `PrivilegeSwitch.after` — the credentials after a call.

Main results:

* `PrivilegeSwitch.run_eq` — a sequence of calls never fails, and leads to the credentials after its
  last call;
* `PrivilegeSwitch.variants_agree` — **the two variants agree on the effective id after every
  call.**
-/

import Mathlib.Data.List.Basic

set_option relaxedAutoImplicit false
set_option autoImplicit false

namespace PrivilegeSwitch

/-! ### The kernel -/

/-- The user ids: `(uid_t) -1` is none, and stands for "leave unchanged" in `setreuid`. -/
abbrev Uid := {u : UInt32 // u ≠ -1}

/-- The real, effective and saved user id of a process. -/
structure Credentials where
  real : Uid
  effective : Uid
  saved : Uid
  deriving DecidableEq

/-- Whether a process with these ids is privileged to set any id; usually that its effective id
is 0. -/
abbrev Privilege := Credentials → Bool

/-- `seteuid`: an unprivileged process may choose its real or its saved id. -/
def seteuid (priv : Privilege) (c : Credentials) (euid : UInt32) : Option Credentials :=
  if h : euid = -1 then none
  else if priv c ∨ euid = c.real ∨ euid = c.saved then some { c with effective := ⟨euid, h⟩ }
  else none

/-- An argument of `setreuid`, for the id it replaces. -/
def orUnchanged (u : UInt32) (old : Uid) : Uid := if h : u = -1 then old else ⟨u, h⟩

/-- `setreuid`: an unprivileged process may set its real id to the real or the effective one, and
its effective id to any of the three.  The saved id follows the new effective id when the real id is
set, or the effective one is set to another value than the old real id. -/
def setreuid (priv : Privilege) (c : Credentials) (ruid euid : UInt32) : Option Credentials :=
  let realOk := ruid = -1 ∨ priv c ∨ ruid = c.real ∨ ruid = c.effective
  let effectiveOk := euid = -1 ∨ priv c ∨ euid = c.real ∨ euid = c.effective ∨ euid = c.saved
  let effective := orUnchanged euid c.effective
  let follows := ruid ≠ -1 ∨ euid ≠ -1 ∧ euid ≠ c.real
  if realOk ∧ effectiveOk then
    some ⟨orUnchanged ruid c.real, effective, if follows then effective else c.saved⟩
  else none

/-! ### The program -/

/-- Whether `_POSIX_SAVED_IDS` is defined where the program is compiled. -/
inductive Variant
  | savedIds
  | fallback
  deriving DecidableEq

/-- `undo_setuid`; the result is `none` when the process exits. -/
def undo_setuid (priv : Privilege) (v : Variant) (ruid euid : UInt32) (c : Credentials) :
    Option Credentials :=
  match v with
  | .savedIds => seteuid priv c ruid
  | .fallback => setreuid priv c euid ruid

/-- `do_setuid`. -/
def do_setuid (priv : Privilege) (v : Variant) (ruid euid : UInt32) (c : Credentials) :
    Option Credentials :=
  match v with
  | .savedIds => seteuid priv c euid
  | .fallback => setreuid priv c ruid euid

/-- A call to one of the two functions. -/
inductive Call
  | undo_setuid
  | do_setuid
  deriving DecidableEq

/-- Making a call. -/
def Call.perform (priv : Privilege) (v : Variant) (ruid euid : UInt32) (c : Credentials) :
    Call → Option Credentials
  | .undo_setuid => PrivilegeSwitch.undo_setuid priv v ruid euid c
  | .do_setuid => PrivilegeSwitch.do_setuid priv v ruid euid c

/-- The credentials of a process just started. -/
def started (ruid euid : Uid) : Credentials := ⟨ruid, euid, euid⟩

/-- The calls of a process, one after the other, with the ids it was started with. -/
def run (priv : Privilege) (v : Variant) (ruid euid : Uid) (calls : List Call) :
    Option Credentials :=
  calls.foldlM (fun c k => k.perform priv v ruid euid c) (started ruid euid)

/-! ### What the calls are for -/

/-- The id a call switches to. -/
def Call.target (ruid euid : Uid) : Call → Uid
  | .undo_setuid => ruid
  | .do_setuid => euid

/-- **The credentials after a call.**  With saved ids only the effective id moves; without them the
real id is always the one that is not in use. -/
def after (ruid euid : Uid) : Variant → Call → Credentials
  | .savedIds, k => ⟨ruid, k.target ruid euid, euid⟩
  | .fallback, .undo_setuid => ⟨euid, ruid, ruid⟩
  | .fallback, .do_setuid => ⟨ruid, euid, euid⟩

theorem after_effective (ruid euid : Uid) (v : Variant) (k : Call) :
    (after ruid euid v k).effective = k.target ruid euid := by
  cases v <;> cases k <;> rfl

/-- A process starts as if it had just called `do_setuid`. -/
theorem started_eq (ruid euid : Uid) (v : Variant) :
    started ruid euid = after ruid euid v .do_setuid := by
  cases v <;> rfl

@[simp] theorem orUnchanged_uid (u old : Uid) : orUnchanged u old = u := by
  simp [orUnchanged, u.property]

/-- `seteuid` to the real or the saved id. -/
theorem seteuid_eq (priv : Privilege) (c : Credentials) {u : Uid} (h : u = c.real ∨ u = c.saved) :
    seteuid priv c u = some { c with effective := u } := by
  rcases h with rfl | rfl <;> simp [seteuid, c.real.property, c.saved.property]

/-- `setreuid` that swaps the real and the effective id, or leaves them as they are. -/
theorem setreuid_eq (priv : Privilege) (c : Credentials) {r e : Uid}
    (h : r = c.effective ∧ e = c.real ∨ r = c.real ∧ e = c.effective) :
    setreuid priv c r e = some ⟨r, e, e⟩ := by
  rcases h with ⟨rfl, rfl⟩ | ⟨rfl, rfl⟩ <;>
    simp [setreuid, c.real.property, c.effective.property]

/-- **Every call is permitted after every call**, and leads to the credentials after it. -/
theorem perform_after (priv : Privilege) (v : Variant) (ruid euid : Uid) (k k' : Call) :
    k'.perform priv v ruid euid (after ruid euid v k) = some (after ruid euid v k') := by
  cases v with
  | savedIds =>
      cases k' with
      | undo_setuid => exact seteuid_eq priv _ (Or.inl rfl)
      | do_setuid => exact seteuid_eq priv _ (Or.inr rfl)
  | fallback =>
      cases k <;> cases k'
      · exact setreuid_eq priv _ (Or.inr ⟨rfl, rfl⟩)
      · exact setreuid_eq priv _ (Or.inl ⟨rfl, rfl⟩)
      · exact setreuid_eq priv _ (Or.inl ⟨rfl, rfl⟩)
      · exact setreuid_eq priv _ (Or.inr ⟨rfl, rfl⟩)

/-- A sequence of calls that follows the call `k`. -/
theorem foldlM_after (priv : Privilege) (v : Variant) (ruid euid : Uid) (calls : List Call)
    (k : Call) :
    calls.foldlM (fun c k => k.perform priv v ruid euid c) (after ruid euid v k)
      = some (after ruid euid v (calls.getLastD k)) := by
  induction calls generalizing k with
  | nil => rfl
  | cons k' rest ih =>
      rw [List.foldlM_cons, perform_after, List.getLastD_cons]
      exact ih k'

/-- **No sequence of calls fails**, and its last call determines the credentials. -/
theorem run_eq (priv : Privilege) (v : Variant) (ruid euid : Uid) (calls : List Call) :
    run priv v ruid euid calls = some (after ruid euid v (calls.getLastD .do_setuid)) := by
  rw [run, started_eq ruid euid v]
  exact foldlM_after priv v ruid euid calls .do_setuid

/-- **The two variants agree**: whatever calls were made before it, a call succeeds in both, and the
effective id is then the one the call switches to. -/
theorem variants_agree (priv : Privilege) (ruid euid : Uid) (calls : List Call) (k : Call) :
    ∃ c c', run priv .savedIds ruid euid (calls ++ [k]) = some c ∧
      run priv .fallback ruid euid (calls ++ [k]) = some c' ∧
      c.effective = k.target ruid euid ∧ c'.effective = k.target ruid euid := by
  have hlast : (calls ++ [k]).getLastD .do_setuid = k := by simp
  refine ⟨_, _, run_eq priv .savedIds ruid euid _, run_eq priv .fallback ruid euid _, ?_⟩
  rw [hlast]
  exact ⟨after_effective ruid euid _ k, after_effective ruid euid _ k⟩

end PrivilegeSwitch
