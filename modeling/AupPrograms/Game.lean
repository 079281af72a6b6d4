/-
**The two files of `game`** (`assignment_7/game.c`).

A process with two user ids keeps a file for each of them, `own` for the real one and `scores` for
the effective one.  It creates or empties each under the id that the file is for.  Then it switches
from one id to the other, opens both files each time, and writes a line to both descriptors.  No
result of `open` is checked: a file of the other id cannot be opened for writing, so that one of the
two descriptors is always -1, and the writes to it fail.

The number of iterations is a parameter, it is 4 in the code.  Calls of `write` may fail or be
short.  What is printed with `printf` is kept apart from the files.

Main definitions:

* `Game.State.open`, `Game.State.write`, `Game.State.close` — the calls;
* `Game.mayWrite` — whether a user may write to a file;
* `Game.main` — the program;
* `Game.Kept` — what is known of the files: each belongs to its id, and only its owner may write.

Main results:

* `Game.Writing.write` — writing to the file of the current id;
* `Game.Kept.iteration` — **one iteration** adds a line to the file of its id, and nothing to the
  other;
* `Game.keeps_apart` — **the two files are kept apart.**
-/

import AupPrograms.CText
import AupPrograms.FileCall
import AupPrograms.PrivilegeSwitch
import Mathlib.Logic.Function.Basic

set_option relaxedAutoImplicit false
set_option autoImplicit false

namespace Game

open CText (ascii)
open PrivilegeSwitch (Uid Credentials Variant Call after started)
open Syscall (Outcome FdTable)

/-! ### Files and processes -/

/-- A regular file. -/
structure File where
  owner : Uid
  group : UInt32
  mode : UInt32
  bytes : List UInt8

/-- What a descriptor refers to. -/
inductive Desc
  | file (path : String) (pos : ℕ) (append : Bool)
  /-- Something else, such as a terminal. -/
  | other
  deriving DecidableEq

/-- A call of `write` on a file: the effective user id at this time, and what was written. -/
structure Write where
  path : String
  effective : Uid
  bytes : List UInt8

structure State where
  cred : Credentials
  fds : FdTable Desc
  files : String → Option File
  /-- How many times `write` was called. -/
  writes : ℕ
  log : List Write
  stdout : List String

/-- What does not change while the program runs, and how the calls of `write` end. -/
structure Env where
  variant : Variant
  umask : UInt32
  /-- The group that a new file gets. -/
  group : UInt32
  /-- The process belongs to a group. -/
  inGroup : UInt32 → Bool
  /-- A user may create files in the directory. -/
  dirWritable : Uid → Bool
  write : ℕ → Outcome

/-! ### The calls -/

/-- The user id 0 is privileged. -/
def privileged (c : Credentials) : Bool := decide (c.effective.1 = 0)

def S_IWUSR : UInt32 := 0o200
def S_IWGRP : UInt32 := 0o020
def S_IWOTH : UInt32 := 0o002

/-- Whether a user may write to a file: only the first class that a user is in counts. -/
def mayWrite (E : Env) (u : Uid) (f : File) : Bool :=
  decide (u.1 = 0) ||
    if u = f.owner then decide (f.mode &&& S_IWUSR ≠ 0)
    else if E.inGroup f.group then decide (f.mode &&& S_IWGRP ≠ 0)
    else decide (f.mode &&& S_IWOTH ≠ 0)

/-- The flags of `open`, besides `O_WRONLY`. -/
structure Flags where
  creat : Bool
  trunc : Bool
  append : Bool

/-- `open`; the result -1 is `none`. -/
def State.open (E : Env) (flags : Flags) (mode : UInt32) (path : String) (s : State) :
    Option ℕ × State :=
  let opened : State := { s with fds := s.fds.alloc (.file path 0 flags.append) }
  match s.files path with
  | none =>
      if flags.creat && E.dirWritable s.cred.effective then
        let f : File := ⟨s.cred.effective, E.group, mode &&& ~~~E.umask, []⟩
        (some s.fds.free, { opened with files := Function.update s.files path (some f) })
      else (none, s)
  | some f =>
      if mayWrite E s.cred.effective f then
        let f' := if flags.trunc then { f with bytes := [] } else f
        (some s.fds.free, { opened with files := Function.update s.files path (some f') })
      else (none, s)

/-- `write` -/
def State.write (E : Env) (fd : Option ℕ) (bs : List UInt8) (s : State) : ℤ × State :=
  let s : State := { s with writes := s.writes + 1 }
  match fd with
  | none => (-1, s)
  | some fd =>
      match s.fds.get fd with
      | none => (-1, s)
      | some .other => (bs.length, s)
      | some (.file path pos append) =>
          match s.files path with
          | none => (-1, s)
          | some f =>
              let r := FileCall.write (E.write s.writes)
                ⟨f.bytes, if append then f.bytes.length else pos⟩ bs
              (r.ret, { s with
                fds := s.fds.put fd (some (.file path r.file.pos append))
                files := Function.update s.files path (some { f with bytes := r.file.bytes })
                log := s.log ++ [⟨path, s.cred.effective, bs.take r.ret.toNat⟩] })

/-- `close` -/
def State.close (fd : Option ℕ) (s : State) : State :=
  match fd with
  | none => s
  | some fd => { s with fds := s.fds.put fd none }

/-! ### The program -/

/-- `if ((num = write(fd, bs, …)) != -1) { if (num < …) printf(message); }` -/
def writeOrPrint (E : Env) (fd : Option ℕ) (bs : List UInt8) (message : String) (s : State) :
    State :=
  let r := s.write E fd bs
  if r.1 ≠ -1 ∧ r.1 < bs.length then { r.2 with stdout := r.2.stdout ++ [message] } else r.2

/-- The three calls of `write` for a line. -/
def writeLine (E : Env) (fd : Option ℕ) (ch : UInt8) (info : List UInt8) (s : State) : State :=
  let s := writeOrPrint E fd [ch] "Less than a byte written\n" s
  let s := writeOrPrint E fd info "Less than expected number of bytes written\n" s
  writeOrPrint E fd [10] "Less than a byte written\n" s

/-- `undo_setuid`; the program exits if it fails. -/
def undo_setuid (E : Env) (ruid euid : Uid) (s : State) : Option State :=
  (PrivilegeSwitch.undo_setuid privileged E.variant ruid euid s.cred).map fun c =>
    { s with cred := c }

/-- `do_setuid` -/
def do_setuid (E : Env) (ruid euid : Uid) (s : State) : Option State :=
  (PrivilegeSwitch.do_setuid privileged E.variant ruid euid s.cred).map fun c =>
    { s with cred := c }

/-- `(id == euid) ? " euid:temp:1001" : " euid:niramay:1000"` -/
def info (id euid : Uid) : List UInt8 :=
  if id = euid then ascii " euid:temp:1001" else ascii " euid:niramay:1000"

/-- `O_WRONLY | O_CREAT | O_TRUNC` -/
def creatTrunc : Flags := ⟨true, true, false⟩

/-- `O_WRONLY | O_APPEND` -/
def append : Flags := ⟨false, false, true⟩

/-- The body of the loop. -/
def iteration (E : Env) (ruid euid : Uid) (s : State) (i : ℕ) : Option State :=
  (if i % 2 = 1 then undo_setuid E ruid euid s else do_setuid E ruid euid s).map fun s =>
    let own := s.open E append 0 "own"
    let scores := own.2.open E append 0 "scores"
    let ch := UInt8.ofNat (i + 48)
    let info := info s.cred.effective euid
    let s := writeLine E scores.1 ch info (writeLine E own.1 ch info scores.2)
    (s.close own.1).close scores.1

/-- **The program**, with `n` iterations; the result is `none` if it exits early. -/
def main (E : Env) (n : ℕ) (s : State) : Option State :=
  let ruid := s.cred.real
  let euid := s.cred.effective
  (undo_setuid E ruid euid s).bind fun s =>
    let own := s.open E creatTrunc 0o644 "own"
    (do_setuid E ruid euid own.2).bind fun s =>
      let scores := s.open E creatTrunc 0o644 "scores"
      (List.range' 1 n).foldlM (iteration E ruid euid) ((scores.2.close own.1).close scores.1)

/-! ### Who may write -/

/-- Only the owner of a file may write to it. -/
def OwnerOnly (mode : UInt32) : Prop :=
  mode &&& S_IWUSR ≠ 0 ∧ mode &&& S_IWGRP = 0 ∧ mode &&& S_IWOTH = 0

/-- The mode of a file that is created, if the umask leaves the owner's write bit. -/
theorem ownerOnly_of_umask {umask : UInt32} (h : umask &&& S_IWUSR = 0) :
    OwnerOnly (0o644 &&& ~~~umask) := by
  have hclear : ∀ bit : UInt32, (0o644 : UInt32) &&& bit = 0 →
      (0o644 &&& ~~~umask) &&& bit = 0 := by
    intro bit hbit
    rw [UInt32.and_assoc, UInt32.and_comm (~~~umask), ← UInt32.and_assoc, hbit, UInt32.zero_and]
  refine ⟨fun h0 => ?_, hclear S_IWGRP rfl, hclear S_IWOTH rfl⟩
  have hbit := congrArg (fun x : UInt32 => x.toBitVec.getLsbD 7) h
  have hbit' := congrArg (fun x : UInt32 => x.toBitVec.getLsbD 7) h0
  simp [S_IWUSR] at hbit
  simp [S_IWUSR, hbit] at hbit'

theorem mayWrite_owner (E : Env) {u : Uid} {f : File} (howner : f.owner = u)
    (hmode : OwnerOnly f.mode) : mayWrite E u f = true := by
  rw [mayWrite, if_pos howner.symm, decide_eq_true hmode.1, Bool.or_true]

theorem mayWrite_other (E : Env) {u : Uid} {f : File} (howner : f.owner ≠ u) (hroot : u.1 ≠ 0)
    (hmode : OwnerOnly f.mode) : mayWrite E u f = false := by
  rw [mayWrite, if_neg howner.symm, decide_eq_false hroot, hmode.2.1, hmode.2.2]
  split_ifs <;> rfl

/-! ### What is known of the files -/

/-- The file that is written under an id. -/
def path : Call → String
  | .undo_setuid => "own"
  | .do_setuid => "scores"

variable {E : Env} {ruid euid : Uid} {contents : Call → List UInt8} {k : Call} {s : State}

/-- **What is known of the files**: each belongs to its id, only its owner may write to it, and it
has been written to under this id only.  If all calls of `write` succeed, its contents are known. -/
structure Kept (E : Env) (ruid euid : Uid) (contents : Call → List UInt8) (s : State) : Prop where
  file : ∀ k, ∃ f, s.files (path k) = some f ∧ f.owner = k.target ruid euid ∧ OwnerOnly f.mode ∧
    ((∀ c, E.write c = .ok) → f.bytes = contents k)
  log : ∀ k, ∀ w ∈ s.log, w.path = path k → w.effective = k.target ruid euid

/-- The file of the current id is open with `O_APPEND`. -/
structure Writing (E : Env) (ruid euid : Uid) (contents : Call → List UInt8) (k : Call) (fd : ℕ)
    (s : State) : Prop extends Kept E ruid euid contents s where
  cred : s.cred = after ruid euid E.variant k
  fd : ∃ pos, s.fds.get fd = some (.file (path k) pos true)

theorem path_inj {k k' : Call} (h : path k = path k') : k = k' := by
  cases k with
  | undo_setuid =>
      cases k' with
      | undo_setuid => rfl
      | do_setuid => exact absurd h (by decide)
  | do_setuid =>
      cases k' with
      | undo_setuid => exact absurd h (by decide)
      | do_setuid => rfl

theorem effective_eq (hcred : s.cred = after ruid euid E.variant k) :
    s.cred.effective = k.target ruid euid := by
  rw [hcred, PrivilegeSwitch.after_effective]

/-- The file of the current id is opened. -/
def opened (k : Call) (s : State) : State :=
  { s with fds := s.fds.alloc (.file (path k) 0 true) }

theorem Kept.open_own (h : Kept E ruid euid contents s)
    (hcred : s.cred = after ruid euid E.variant k) :
    s.open E append 0 (path k) = (some s.fds.free, opened k s) ∧
      Writing E ruid euid contents k s.fds.free (opened k s) := by
  obtain ⟨f, hf, howner, hmode, -⟩ := h.file k
  have hmay : mayWrite E s.cred.effective f = true :=
    mayWrite_owner E (howner.trans (effective_eq hcred).symm) hmode
  have hfiles : Function.update s.files (path k) (some f) = s.files := by
    rw [← hf]
    exact Function.update_eq_self _ _
  constructor
  · simp only [State.open, hf, hmay, append, if_true, Bool.false_eq_true, if_false, hfiles, opened]
  · exact ⟨⟨h.file, h.log⟩, hcred, 0, FdTable.get_alloc_self _ _⟩

/-- The file of the other id cannot be opened. -/
theorem Kept.open_other (h : Kept E ruid euid contents s)
    (hcred : s.cred = after ruid euid E.variant k) (hne : ruid ≠ euid) (hruid : ruid.1 ≠ 0)
    (heuid : euid.1 ≠ 0) (k' : Call) (hk : k' ≠ k) :
    s.open E append 0 (path k') = (none, s) := by
  obtain ⟨f, hf, howner, hmode, -⟩ := h.file k'
  have hother : f.owner ≠ s.cred.effective ∧ s.cred.effective.1 ≠ 0 := by
    rw [howner, effective_eq hcred]
    cases k with
    | undo_setuid =>
        cases k' with
        | undo_setuid => exact absurd rfl hk
        | do_setuid => exact ⟨hne.symm, hruid⟩
    | do_setuid =>
        cases k' with
        | undo_setuid => exact ⟨hne, heuid⟩
        | do_setuid => exact absurd rfl hk
  have hmay : mayWrite E s.cred.effective f = false := mayWrite_other E hother.1 hother.2 hmode
  simp only [State.open, hf, hmay, Bool.false_eq_true, if_false]

/-! ### Writing -/

/-- What a call of `write` on a descriptor with `O_APPEND` leaves of the file. -/
theorem write_append_bytes (r : Outcome) (bytes bs : List UInt8) :
    ∃ done, (FileCall.write r ⟨bytes, bytes.length⟩ bs).file.bytes = bytes ++ done ∧
      (r = .ok → done = bs) := by
  by_cases hr : r = .fail
  · subst hr
    exact ⟨[], (List.append_nil bytes).symm, fun h => by cases h⟩
  · refine ⟨bs.take (r.limit bs.length), ?_, ?_⟩
    · rw [FileCall.write, if_neg hr]
      exact OpenFile.write_bytes_end bytes _
    · rintro rfl
      exact List.take_length

/-- **Writing to the file of the current id.** -/
theorem Writing.write {fd : ℕ} (h : Writing E ruid euid contents k fd s) (bs : List UInt8) :
    Writing E ruid euid (Function.update contents k (contents k ++ bs)) k fd
      (s.write E (some fd) bs).2 := by
  obtain ⟨f, hf, howner, hmode, hbytes⟩ := h.file k
  obtain ⟨pos, hfd⟩ := h.fd
  obtain ⟨done, hdone, hok⟩ := write_append_bytes (E.write (s.writes + 1)) f.bytes bs
  have heff : s.cred.effective = k.target ruid euid := effective_eq h.cred
  have hopen : s.fds.get fd ≠ none := by
    rw [hfd]
    exact Option.some_ne_none _
  simp only [State.write, hfd, hf, if_true]
  refine ⟨⟨fun k' => ?_, fun k' w hw hpath => ?_⟩, h.cred, ?_⟩
  · rcases eq_or_ne k' k with rfl | hne
    · refine ⟨_, Function.update_self _ _ _, howner, hmode, fun hall => ?_⟩
      rw [Function.update_self, ← hbytes hall]
      exact hdone.trans (by rw [hok (hall _)])
    · have hpath : path k' ≠ path k := fun heq => hne (path_inj heq)
      obtain ⟨f', hf', howner', hmode', hbytes'⟩ := h.file k'
      refine ⟨f', (Function.update_of_ne hpath _ _).trans hf', howner', hmode', fun hall => ?_⟩
      rw [Function.update_of_ne hne]
      exact hbytes' hall
  · rcases List.mem_append.1 hw with hold | hnew
    · exact h.log k' w hold hpath
    · obtain rfl := List.mem_singleton.1 hnew
      obtain rfl := path_inj hpath
      exact heff
  · exact ⟨_, FdTable.get_put_self hopen _⟩

/-- A message changes nothing about the files. -/
theorem Writing.writeOrPrint {fd : ℕ} (h : Writing E ruid euid contents k fd s) (bs : List UInt8)
    (message : String) :
    Writing E ruid euid (Function.update contents k (contents k ++ bs)) k fd
      (writeOrPrint E (some fd) bs message s) := by
  have hw := h.write bs
  rw [Game.writeOrPrint]
  split_ifs
  · exact ⟨⟨hw.file, hw.log⟩, hw.cred, hw.fd⟩
  · exact hw

theorem Writing.writeLine {fd : ℕ} (h : Writing E ruid euid contents k fd s) (ch : UInt8)
    (info : List UInt8) :
    Writing E ruid euid (Function.update contents k (contents k ++ (ch :: info ++ [10]))) k fd
      (writeLine E (some fd) ch info s) := by
  have hw := ((h.writeOrPrint [ch] "Less than a byte written\n").writeOrPrint info
    "Less than expected number of bytes written\n").writeOrPrint [10] "Less than a byte written\n"
  simp only [Function.update_idem, Function.update_self, List.append_assoc,
    List.singleton_append] at hw
  exact hw

/-- Nothing is written to the descriptor -1. -/
theorem writeLine_none (E : Env) (ch : UInt8) (info : List UInt8) (s : State) :
    writeLine E none ch info s = { s with writes := s.writes + 3 } := by
  have hone : ∀ (bs : List UInt8) (message : String) (s : State),
      writeOrPrint E none bs message s = { s with writes := s.writes + 1 } := by
    intro bs message s
    rw [Game.writeOrPrint, if_neg]
    · rfl
    · exact fun h => h.1 rfl
  rw [writeLine, hone, hone, hone]

theorem Kept.close (h : Kept E ruid euid contents s) (fd : Option ℕ) :
    Kept E ruid euid contents (s.close fd) := by
  cases fd with
  | none => exact h
  | some fd => exact ⟨h.file, h.log⟩

theorem close_cred (fd : Option ℕ) (s : State) : (s.close fd).cred = s.cred := by
  cases fd with
  | none => rfl
  | some fd => rfl

/-! ### One iteration -/

/-- Which of the two functions is called in an iteration. -/
def turn (i : ℕ) : Call := if i % 2 = 1 then .undo_setuid else .do_setuid

/-- The line of an iteration. -/
def line (ruid euid : Uid) (i : ℕ) : List UInt8 :=
  UInt8.ofNat (i + 48) :: info ((turn i).target ruid euid) euid ++ [10]

theorem undo_setuid_eq {k₀ : Call} (hcred : s.cred = after ruid euid E.variant k₀) :
    undo_setuid E ruid euid s =
      some { s with cred := after ruid euid E.variant .undo_setuid } := by
  rw [undo_setuid, hcred]
  exact congrArg (Option.map _)
    (PrivilegeSwitch.perform_after privileged E.variant ruid euid k₀ .undo_setuid)

theorem do_setuid_eq {k₀ : Call} (hcred : s.cred = after ruid euid E.variant k₀) :
    do_setuid E ruid euid s = some { s with cred := after ruid euid E.variant .do_setuid } := by
  rw [do_setuid, hcred]
  exact congrArg (Option.map _)
    (PrivilegeSwitch.perform_after privileged E.variant ruid euid k₀ .do_setuid)

/-- The switch to the id of an iteration succeeds. -/
theorem switch_eq {k₀ : Call} (hcred : s.cred = after ruid euid E.variant k₀) (i : ℕ) :
    (if i % 2 = 1 then undo_setuid E ruid euid s else do_setuid E ruid euid s) =
      some { s with cred := after ruid euid E.variant (turn i) } := by
  by_cases hi : i % 2 = 1
  · rw [if_pos hi, undo_setuid_eq hcred, turn, if_pos hi]
  · rw [if_neg hi, do_setuid_eq hcred, turn, if_neg hi]

/-- **One iteration** adds a line to the file of its id, and nothing to the other. -/
theorem Kept.iteration (h : Kept E ruid euid contents s) (hne : ruid ≠ euid) (hruid : ruid.1 ≠ 0)
    (heuid : euid.1 ≠ 0) {k₀ : Call} (hcred : s.cred = after ruid euid E.variant k₀) (i : ℕ) :
    ∃ s', iteration E ruid euid s i = some s' ∧ s'.cred = after ruid euid E.variant (turn i) ∧
      Kept E ruid euid (Function.update contents (turn i) (contents (turn i) ++ line ruid euid i))
        s' := by
  rw [Game.iteration, switch_eq hcred i, Option.map_some]
  refine ⟨_, rfl, ?_⟩
  generalize hs₁ : { s with cred := after ruid euid E.variant (turn i) } = s₁
  have hkept : Kept E ruid euid contents s₁ := hs₁ ▸ ⟨h.file, h.log⟩
  have hcred₁ : s₁.cred = after ruid euid E.variant (turn i) := hs₁ ▸ rfl
  rw [line, ← effective_eq hcred₁]
  obtain ⟨hopen, hw⟩ := hkept.open_own hcred₁
  cases hk : turn i with
  | undo_setuid =>
      rw [hk] at hopen hw
      have hown : s₁.open E append 0 "own" = _ := hopen
      have hscores : (opened .undo_setuid s₁).open E append 0 "scores" = _ :=
        hw.toKept.open_other hw.cred hne hruid heuid .do_setuid (by decide)
      have hline := hw.writeLine (UInt8.ofNat (i + 48)) (info s₁.cred.effective euid)
      simp only [hown, hscores, writeLine_none]
      constructor
      · rw [close_cred, close_cred]
        exact hline.cred
      · refine Kept.close (Kept.close ?_ _) _
        exact ⟨hline.file, hline.log⟩
  | do_setuid =>
      rw [hk] at hcred₁ hopen hw
      have hown : s₁.open E append 0 "own" = _ :=
        hkept.open_other hcred₁ hne hruid heuid .undo_setuid (by decide)
      have hscores : s₁.open E append 0 "scores" = _ := hopen
      have hw' : Writing E ruid euid contents .do_setuid s₁.fds.free
          { opened .do_setuid s₁ with writes := (opened .do_setuid s₁).writes + 3 } :=
        ⟨⟨hw.file, hw.log⟩, hw.cred, hw.fd⟩
      have hline := hw'.writeLine (UInt8.ofNat (i + 48)) (info s₁.cred.effective euid)
      simp only [hown, hscores, writeLine_none]
      constructor
      · rw [close_cred, close_cred]
        exact hline.cred
      · exact Kept.close (Kept.close hline.toKept _) _

/-! ### The whole program -/

/-- The lines of the iterations `is` that belong to an id. -/
def lines (ruid euid : Uid) (k : Call) (is : List ℕ) : List UInt8 :=
  (is.filter fun i => turn i = k).flatMap (line ruid euid)

/-- The loop adds the lines of each id to its file, in order. -/
theorem Kept.loop (hne : ruid ≠ euid) (hruid : ruid.1 ≠ 0) (heuid : euid.1 ≠ 0) (is : List ℕ)
    (h : Kept E ruid euid contents s) {k₀ : Call}
    (hcred : s.cred = after ruid euid E.variant k₀) :
    ∃ s', is.foldlM (Game.iteration E ruid euid) s = some s' ∧
      Kept E ruid euid (fun k => contents k ++ lines ruid euid k is) s' := by
  induction is generalizing contents s k₀ with
  | nil =>
      refine ⟨s, rfl, ?_⟩
      simpa only [lines, List.filter_nil, List.flatMap_nil, List.append_nil] using h
  | cons i is ih =>
      obtain ⟨s₁, hstep, hcred₁, hkept₁⟩ := h.iteration hne hruid heuid hcred i
      obtain ⟨s', hrun, hkept'⟩ := ih hkept₁ hcred₁
      refine ⟨s', ?_, ?_⟩
      · rw [List.foldlM_cons, hstep]
        exact hrun
      · have hlines : (fun k => Function.update contents (turn i)
            (contents (turn i) ++ line ruid euid i) k ++ lines ruid euid k is) =
            fun k => contents k ++ lines ruid euid k (i :: is) := by
          funext k
          rcases eq_or_ne (turn i) k with rfl | hne
          · rw [Function.update_self, lines, lines, List.filter_cons_of_pos (by simp),
              List.flatMap_cons, List.append_assoc]
          · rw [Function.update_of_ne hne.symm, lines, lines, List.filter_cons_of_neg (by simpa)]
        rwa [hlines] at hkept'

/-- Creating a file, or emptying it: no other file changes. -/
theorem open_creatTrunc {u : Uid} (p : String) (heff : s.cred.effective = u)
    (humask : E.umask &&& S_IWUSR = 0) (hdir : E.dirWritable u = true)
    (hfile : ∀ f, s.files p = some f → f.owner = u ∧ f.mode = 0o644) :
    (s.open E creatTrunc 0o644 p).2.cred = s.cred ∧
      (s.open E creatTrunc 0o644 p).2.log = s.log ∧
      ∃ f : File, (s.open E creatTrunc 0o644 p).2.files = Function.update s.files p (some f) ∧
        f.owner = u ∧ OwnerOnly f.mode ∧ f.bytes = [] := by
  subst heff
  cases hf : s.files p with
  | none =>
      simp only [State.open, hf, creatTrunc, hdir, Bool.and_self, if_true]
      exact ⟨trivial, trivial, _, rfl, rfl, ownerOnly_of_umask humask, rfl⟩
  | some f =>
      obtain ⟨howner, hmode⟩ := hfile f hf
      have honly : OwnerOnly f.mode := by
        rw [hmode]
        exact ⟨by decide, by decide, by decide⟩
      simp only [State.open, hf, creatTrunc, mayWrite_owner E howner honly, if_true]
      exact ⟨trivial, trivial, _, rfl, howner, honly, rfl⟩

/-- **The state before the program**: each of the two files is absent, or belongs to its id. -/
structure Init (E : Env) (ruid euid : Uid) (s : State) : Prop where
  cred : s.cred = started ruid euid
  own : ∀ f, s.files "own" = some f → f.owner = ruid ∧ f.mode = 0o644
  scores : ∀ f, s.files "scores" = some f → f.owner = euid ∧ f.mode = 0o644
  dir : E.dirWritable ruid = true ∧ E.dirWritable euid = true
  umask : E.umask &&& S_IWUSR = 0
  log : s.log = []

/-- Both files are empty when the loop begins. -/
theorem Init.kept (h : Init E ruid euid s) (n : ℕ) :
    ∃ s', main E n s = (List.range' 1 n).foldlM (Game.iteration E ruid euid) s' ∧
      s'.cred = after ruid euid E.variant .do_setuid ∧
      Kept E ruid euid (fun _ => []) s' := by
  have hstarted : s.cred = after ruid euid E.variant .do_setuid := by
    rw [h.cred, PrivilegeSwitch.started_eq ruid euid E.variant]
  have hreal : s.cred.real = ruid := by rw [h.cred]; rfl
  have heffective : s.cred.effective = euid := by rw [h.cred]; rfl
  have hundo := undo_setuid_eq hstarted
  generalize hs₁ : { s with cred := after ruid euid E.variant .undo_setuid } = s₁ at hundo
  have hcred₁ : s₁.cred = after ruid euid E.variant .undo_setuid := hs₁ ▸ rfl
  have hfiles₁ : s₁.files = s.files := hs₁ ▸ rfl
  have hlog₁ : s₁.log = s.log := hs₁ ▸ rfl
  obtain ⟨hcred₂, hlog₂, own, hfiles₂, hown⟩ := open_creatTrunc "own" (effective_eq hcred₁)
    h.umask h.dir.1 (hfiles₁ ▸ h.own)
  generalize hs₂ : s₁.open E creatTrunc 0o644 "own" = r₂ at hcred₂ hlog₂ hfiles₂
  have hdo := do_setuid_eq (hcred₂.trans hcred₁)
  generalize hs₃ : { r₂.2 with cred := after ruid euid E.variant .do_setuid } = s₃ at hdo
  have hcred₃ : s₃.cred = after ruid euid E.variant .do_setuid := hs₃ ▸ rfl
  have hfiles₃ : s₃.files = Function.update s.files "own" (some own) := by
    rw [← hfiles₁, ← hfiles₂, ← hs₃]
  have hlog₃ : s₃.log = s.log := by
    rw [← hlog₁, ← hlog₂, ← hs₃]
  have hscores₃ : ∀ f, s₃.files "scores" = some f → f.owner = euid ∧ f.mode = 0o644 := by
    intro f hf
    rw [hfiles₃, Function.update_of_ne (by decide)] at hf
    exact h.scores f hf
  obtain ⟨hcred₄, hlog₄, scores, hfiles₄, hscores⟩ := open_creatTrunc "scores"
    (effective_eq hcred₃) h.umask h.dir.2 hscores₃
  generalize hs₄ : s₃.open E creatTrunc 0o644 "scores" = r₄ at hcred₄ hlog₄ hfiles₄
  refine ⟨(r₄.2.close r₂.1).close r₄.1, ?_, ?_, Kept.close (Kept.close ?_ _) _⟩
  · simp only [main, hreal, heffective, hundo, Option.bind_some, hs₂, hdo, hs₄]
  · rw [close_cred, close_cred, hcred₄, hcred₃]
  · refine ⟨fun k => ?_, fun k w hw => ?_⟩
    · cases k with
      | undo_setuid =>
          refine ⟨own, ?_, hown.1, hown.2.1, fun _ => hown.2.2⟩
          rw [hfiles₄, hfiles₃, path, Function.update_of_ne (by decide), Function.update_self]
      | do_setuid =>
          refine ⟨scores, ?_, hscores.1, hscores.2.1, fun _ => hscores.2.2⟩
          rw [hfiles₄, path, Function.update_self]
    · rw [hlog₄, hlog₃, h.log] at hw
      cases hw

/-- **The files have been written to under the right id only.** -/
def Separated (ruid euid : Uid) (s : State) : Prop :=
  ∀ w ∈ s.log, (w.path = "own" → w.effective ≠ euid) ∧ (w.path = "scores" → w.effective ≠ ruid)

/-- The lines of the odd iterations, up to number `n`. -/
def ownLines (n : ℕ) : List UInt8 :=
  ((List.range' 1 n).filter fun i => i % 2 = 1).flatMap fun i =>
    UInt8.ofNat (i + 48) :: ascii " euid:niramay:1000" ++ [10]

/-- The lines of the even iterations. -/
def scoresLines (n : ℕ) : List UInt8 :=
  ((List.range' 1 n).filter fun i => i % 2 = 0).flatMap fun i =>
    UInt8.ofNat (i + 48) :: ascii " euid:temp:1001" ++ [10]

theorem turn_eq_undo {i : ℕ} : turn i = .undo_setuid ↔ i % 2 = 1 := by
  rw [turn]
  split_ifs with hi
  · exact iff_of_true rfl hi
  · exact iff_of_false (fun h => by cases h) hi

theorem turn_eq_do {i : ℕ} : turn i = .do_setuid ↔ i % 2 = 0 := by
  rw [turn]
  split_ifs with hi
  · exact iff_of_false (fun h => by cases h) (by omega)
  · exact iff_of_true rfl (by omega)

theorem lines_own (hne : ruid ≠ euid) (n : ℕ) :
    lines ruid euid .undo_setuid (List.range' 1 n) = ownLines n := by
  have hfilter : (List.range' 1 n).filter (fun i => turn i = .undo_setuid) =
      (List.range' 1 n).filter fun i => i % 2 = 1 :=
    List.filter_congr fun i _ => decide_eq_decide.2 turn_eq_undo
  rw [lines, hfilter, ownLines, List.flatMap_def, List.flatMap_def]
  refine congrArg List.flatten (List.map_congr_left fun i hi => ?_)
  have hturn := turn_eq_undo.2 (of_decide_eq_true (List.mem_filter.1 hi).2)
  rw [line, hturn, Call.target, info, if_neg hne]

theorem lines_scores (n : ℕ) :
    lines ruid euid .do_setuid (List.range' 1 n) = scoresLines n := by
  have hfilter : (List.range' 1 n).filter (fun i => turn i = .do_setuid) =
      (List.range' 1 n).filter fun i => i % 2 = 0 :=
    List.filter_congr fun i _ => decide_eq_decide.2 turn_eq_do
  rw [lines, hfilter, scoresLines, List.flatMap_def, List.flatMap_def]
  refine congrArg List.flatten (List.map_congr_left fun i hi => ?_)
  have hturn := turn_eq_do.2 (of_decide_eq_true (List.mem_filter.1 hi).2)
  rw [line, hturn, Call.target, info, if_pos rfl]

/-- **The two files are kept apart**: neither is written to under the id of the other, and if all
calls of `write` succeed, each holds exactly the lines of its iterations. -/
theorem keeps_apart (n : ℕ) (h : Init E ruid euid s) (hne : ruid ≠ euid) (hruid : ruid.1 ≠ 0)
    (heuid : euid.1 ≠ 0) :
    ∃ s', main E n s = some s' ∧ Separated ruid euid s' ∧ ((∀ c, E.write c = .ok) →
      (s'.files "own").map File.bytes = some (ownLines n) ∧
      (s'.files "scores").map File.bytes = some (scoresLines n)) := by
  obtain ⟨s₁, hmain, hcred₁, hkept₁⟩ := h.kept n
  obtain ⟨s', hrun, hkept⟩ := hkept₁.loop hne hruid heuid (List.range' 1 n) hcred₁
  refine ⟨s', hmain.trans hrun, fun w hw => ⟨?_, ?_⟩, fun hok => ⟨?_, ?_⟩⟩
  · intro hpath
    have hown : w.effective = ruid := hkept.log .undo_setuid w hw hpath
    rwa [hown]
  · intro hpath
    have hscores : w.effective = euid := hkept.log .do_setuid w hw hpath
    rw [hscores]
    exact hne.symm
  · obtain ⟨f, hf, -, -, hbytes⟩ := hkept.file .undo_setuid
    have hfile : s'.files "own" = some f := hf
    rw [hfile, Option.map_some, hbytes hok, List.nil_append, lines_own hne]
  · obtain ⟨f, hf, -, -, hbytes⟩ := hkept.file .do_setuid
    have hfile : s'.files "scores" = some f := hf
    rw [hfile, Option.map_some, hbytes hok, List.nil_append, lines_scores]

/-- A user 1000 whose file holds something, and the first start for the user 1001. -/
def env : Env where
  variant := .savedIds
  umask := 0o022
  group := 100
  inGroup g := g == 100
  dirWritable _ := true
  write _ := .ok

def before : State where
  cred := started ⟨1000, by decide⟩ ⟨1001, by decide⟩
  fds := [some .other, some .other, some .other]
  files p := if p = "own" then some ⟨⟨1000, by decide⟩, 100, 0o644, ascii "old"⟩ else none
  writes := 0
  log := []
  stdout := []

theorem keeps_apart_before : ∃ s', main env 4 before = some s' ∧
    Separated ⟨1000, by decide⟩ ⟨1001, by decide⟩ s' ∧ ((∀ c, env.write c = .ok) →
      (s'.files "own").map File.bytes = some (ownLines 4) ∧
      (s'.files "scores").map File.bytes = some (scoresLines 4)) := by
  refine keeps_apart 4 ⟨rfl, ?_, ?_, ⟨rfl, rfl⟩, by decide, rfl⟩ (by decide) (by decide) (by decide)
  · intro f hf
    have hfile : f = ⟨⟨1000, by decide⟩, 100, 0o644, ascii "old"⟩ := (Option.some.inj hf).symm
    rw [hfile]
    exact ⟨rfl, rfl⟩
  · intro f hf
    cases hf

end Game
