/-
**System calls as a process sees them: how they end, and descriptors.**

A process refers to an open file by a number.  Opening one more file takes the lowest number that is
free; closing a descriptor makes its number free again.  What a descriptor refers to may be
anything.

Main definitions:

* `Syscall.Outcome` — a call succeeds, fails, or transfers fewer bytes than it was asked to;
* `Syscall.FdTable` — the descriptors of a process;
* `FdTable.free`, `FdTable.alloc`, `FdTable.put` — the lowest free number, opening a file, and
  changing what a descriptor refers to.

Main results:

* `FdTable.free_eq` — **what the lowest free number is.**
-/

import Mathlib.Data.List.Basic
import Mathlib.Data.List.GetD

set_option relaxedAutoImplicit false
set_option autoImplicit false

namespace Syscall

/-- How a system call ends. -/
inductive Outcome
  | ok
  | fail
  /-- A read or write of at most `n` bytes. -/
  | short (n : ℕ)
  deriving DecidableEq

/-- The number of bytes that a call with this outcome transfers at most, out of `size`. -/
def Outcome.limit (size : ℕ) : Outcome → ℕ
  | .ok => size
  | .fail => 0
  | .short n => min n size

/-- What each descriptor refers to, from 0 on; the numbers behind the list are free. -/
abbrev FdTable (D : Type*) := List (Option D)

namespace FdTable

variable {D : Type*}

/-- What a descriptor refers to, if it is open. -/
def get (t : FdTable D) (fd : ℕ) : Option D := t.getD fd none

/-- The lowest free number. -/
def free : FdTable D → ℕ
  | [] => 0
  | none :: _ => 0
  | some _ :: t => free t + 1

/-- The lowest free number is taken for `d`. -/
def alloc : FdTable D → D → FdTable D
  | [], d => [some d]
  | none :: t, d => some d :: t
  | some e :: t, d => some e :: alloc t d

/-- An open descriptor refers to `d` from now on; it is closed when there is no `d`. -/
def put (t : FdTable D) (fd : ℕ) (d : Option D) : FdTable D := t.set fd d

@[simp] theorem get_nil (fd : ℕ) : get ([] : FdTable D) fd = none := rfl

@[simp] theorem get_cons_zero (d : Option D) (t : FdTable D) : get (d :: t) 0 = d := rfl

@[simp] theorem get_cons_succ (d : Option D) (t : FdTable D) (fd : ℕ) :
    get (d :: t) (fd + 1) = get t fd := rfl

/-! ### The lowest free number -/

theorem get_free (t : FdTable D) : get t (free t) = none := by
  induction t with
  | nil => rfl
  | cons d t ih =>
      cases d with
      | none => rfl
      | some e => exact ih

theorem get_of_lt_free {t : FdTable D} {fd : ℕ} (h : fd < free t) : get t fd ≠ none := by
  induction t generalizing fd with
  | nil => simp [free] at h
  | cons d t ih =>
      cases d with
      | none => simp [free] at h
      | some e =>
          cases fd with
          | zero => simp
          | succ fd => exact ih (Nat.lt_of_succ_lt_succ h)

/-- A free number below which all are taken is the lowest free number. -/
theorem free_eq {t : FdTable D} {fd : ℕ} (h : get t fd = none) (hlt : ∀ m < fd, get t m ≠ none) :
    free t = fd := by
  rcases Nat.lt_trichotomy (free t) fd with hfree | hfree | hfree
  · exact absurd (get_free t) (hlt _ hfree)
  · exact hfree
  · exact absurd h (get_of_lt_free hfree)

/-! ### Opening and closing -/

theorem get_alloc_self (t : FdTable D) (d : D) : get (alloc t d) (free t) = some d := by
  induction t with
  | nil => rfl
  | cons e t ih =>
      cases e with
      | none => rfl
      | some e => exact ih

theorem get_alloc_of_ne {t : FdTable D} {d : D} {fd : ℕ} (h : fd ≠ free t) :
    get (alloc t d) fd = get t fd := by
  induction t generalizing fd with
  | nil =>
      cases fd with
      | zero => exact absurd rfl h
      | succ fd => rfl
  | cons e t ih =>
      cases e with
      | none =>
          cases fd with
          | zero => exact absurd rfl h
          | succ fd => rfl
      | some e =>
          cases fd with
          | zero => rfl
          | succ fd => exact ih fun heq => h (congrArg (· + 1) heq)

theorem get_put_self {t : FdTable D} {fd : ℕ} (h : get t fd ≠ none) (d : Option D) :
    get (put t fd d) fd = d := by
  have hlt : fd < t.length := by
    by_contra hge
    exact h (List.getD_eq_default _ _ (by omega))
  rw [get, put, List.getD_eq_getElem _ _ (by simpa using hlt), List.getElem_set_self]

theorem get_put_of_ne {t : FdTable D} {fd m : ℕ} (h : m ≠ fd) (d : Option D) :
    get (put t fd d) m = get t m := by
  rw [get, get, put, List.getD_eq_getElem?_getD, List.getD_eq_getElem?_getD,
    List.getElem?_set_ne h.symm]

/-- What is below the lowest free number stays when a file is opened. -/
theorem get_alloc_of_lt {t : FdTable D} {fd : ℕ} (h : fd < free t) (d : D) :
    get (alloc t d) fd ≠ none := by
  rw [get_alloc_of_ne (Nat.ne_of_lt h)]
  exact get_of_lt_free h

end FdTable

end Syscall
