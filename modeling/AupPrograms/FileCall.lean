/-
**The system calls on an open file, as a program sees them.**

Each call may fail, which changes nothing and returns -1, or transfer fewer bytes than it was asked
to.  How the calls of a run end is a sequence of outcomes; the runs in which every call succeeds are
those of one such sequence.

Main definitions:

* `FileCall.Result` — the value that a call returns, the bytes it has read, and the file;
* `FileCall.lseek`, `FileCall.read`, `FileCall.write` — the calls;
* `FileCall.succeed` — every call succeeds;
* `FileCall.Exit` — how a program ends.

Main results:

* `FileCall.lseek_ok`, `FileCall.read_one_ok`, `FileCall.write_ok` — the calls that succeed.
-/

import AupPrograms.OpenFile
import AupPrograms.Syscall

set_option relaxedAutoImplicit false
set_option autoImplicit false

namespace FileCall

open Syscall OpenFile

/-- What a call returns, the bytes that it has read, and the file as it leaves it. -/
structure Result where
  ret : ℤ
  bytes : List UInt8
  file : OpenFile

/-- A call that fails. -/
def failure (f : OpenFile) : Result := ⟨-1, [], f⟩

/-- `lseek` -/
def lseek (r : Outcome) (f : OpenFile) (offset : ℤ) (whence : Whence) : Result :=
  if r = .fail then failure f
  else
    match f.lseek offset whence with
    | none => failure f
    | some g => ⟨g.pos, [], g⟩

/-- `read` of at most `n` bytes. -/
def read (r : Outcome) (f : OpenFile) (n : ℕ) : Result :=
  if r = .fail then failure f
  else
    let got := f.read (r.limit n)
    ⟨got.1.length, got.1, got.2⟩

/-- `write` -/
def write (r : Outcome) (f : OpenFile) (bs : List UInt8) : Result :=
  if r = .fail then failure f
  else
    let done := bs.take (r.limit bs.length)
    ⟨done.length, [], f.write done⟩

/-- How a program ends. -/
inductive Exit
  /-- `return 0` -/
  | returned
  /-- `return errno` -/
  | failed
  /-- `exit(0)`, because fewer bytes were transferred than requested. -/
  | exited
  deriving DecidableEq

/-- Every call succeeds. -/
def succeed : ℕ → Outcome := fun _ => .ok

/-! ### Calls that succeed -/

theorem lseek_ok {f : OpenFile} {n : ℕ} (h : n < 2 ^ 63) :
    lseek .ok f n .set = ⟨n, [], { f with pos := n }⟩ := by
  have hlseek : f.lseek n .set = some { f with pos := n } := by
    have hrange : 0 ≤ f.base .set + n ∧ f.base .set + n < 2 ^ 63 := by
      simp only [base]
      omega
    rw [OpenFile.lseek, if_pos hrange]
    simp [base]
  simp [lseek, hlseek]

theorem write_ok (f : OpenFile) (bs : List UInt8) :
    write .ok f bs = ⟨bs.length, [], f.write bs⟩ := by
  simp [write, Outcome.limit]

theorem read_ok (f : OpenFile) (n : ℕ) :
    read .ok f n = ⟨(f.read n).1.length, (f.read n).1, (f.read n).2⟩ := rfl

/-- One of the bytes that are left is read. -/
theorem read_one_ok {f : OpenFile} {b : UInt8} {bs : List UInt8} (h : f.rest = b :: bs) :
    read .ok f 1 = ⟨1, [b], f.skip⟩ := by
  rw [read_ok, (read_one h).1]
  rfl

/-- At the end of the file there is none. -/
theorem read_end_ok {f : OpenFile} (h : f.rest = []) (n : ℕ) : read .ok f n = ⟨0, [], f⟩ := by
  rw [read_ok, read_nil h]
  rfl

end FileCall
