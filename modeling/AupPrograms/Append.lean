/-
**Concurrent appends to one file** (`assignment_1/append.c`).

A process writes "abcde" at the beginning of a file, which it creates when it is missing, closes it,
opens it again with `O_APPEND` and writes "12345".  Before that it calls `lseek` on the descriptor
that it has closed.  The number is valid all the same: it was the lowest free one, so it is the
number of the descriptor just opened.

Any number of processes do this with the same file.  Every call may fail or transfer fewer bytes;
the result is about the runs in which none does.

Main definitions:

* `Append.Proc`, `Append.process` — one process and its steps;
* `Append.system`, `Append.successful` — any number of them, and the runs in which calls succeed;
* `Append.Local`, `Append.Inv` — what holds of one process and of all together.

Main results:

* `Append.process_ok` — every call of a process succeeds, and what it does to the file;
* `Append.appends_lose_nothing` — **every process returns 0, and then the file has all that they
  have appended.**
-/

import AupPrograms.Lts
import AupPrograms.OpenFile
import AupPrograms.Syscall
import Mathlib.Algebra.Order.BigOperators.Ring.Finset
import Mathlib.Data.Fintype.BigOperators

set_option relaxedAutoImplicit false
set_option autoImplicit false

namespace Append

open Syscall

/-! ### The program -/

/-- What a descriptor refers to: the file, with its offset and the flag `O_APPEND`, or something
else. -/
inductive Desc
  | file (pos : ℕ) (append : Bool)
  | other
  deriving DecidableEq

/-- Where a process is. -/
inductive Pc
  | open
  | write
  | close
  | openAppend
  | lseek
  | writeAppend
  | closeAppend
  /-- `return 0` -/
  | returned
  /-- `return errno` -/
  | failed
  /-- `exit(0)` after a short write -/
  | exited
  deriving DecidableEq

/-- A process: its descriptors, where it is, and its two variables. -/
structure Proc where
  table : FdTable Desc
  pc : Pc
  fd : ℕ
  fd_new : ℕ

def Proc.goto (pr : Proc) (pc : Pc) : Proc := { pr with pc := pc }

/-- "abcde" -/
def abcde : List UInt8 := [97, 98, 99, 100, 101]

/-- "12345" -/
def digits : List UInt8 := [49, 50, 51, 52, 53]

/-- A write to a descriptor, at its offset or with `O_APPEND` at the end of the file. -/
def writeTo (file : List UInt8) (t : FdTable Desc) (fd : ℕ) (bs : List UInt8) :
    Option (List UInt8 × FdTable Desc) :=
  match t.get fd with
  | none => none
  | some .other => some (file, t)
  | some (.file pos append) =>
      let f := OpenFile.write ⟨file, if append then file.length else pos⟩ bs
      some (f.bytes, t.put fd (some (.file f.pos append)))

/-- `if ((bytes = write(fd, bs, 5)) == -1) …; if (bytes < 5) …`, with `pc` behind it. -/
def writes (file : Option (List UInt8)) (pr : Proc) (r : Outcome) (fd : ℕ) (bs : List UInt8)
    (pc : Pc) : Option (List UInt8) × Proc :=
  if r = .fail then (file, pr.goto .failed)
  else
    match writeTo (file.getD []) pr.table fd (bs.take (r.limit bs.length)) with
    | none => (file, pr.goto .failed)
    | some (f, t) =>
        (some f,
          { pr with table := t }.goto (if r.limit bs.length < bs.length then .exited else pc))

/-- `if (close(fd) == -1) …`, with `pc` behind it. -/
def closes (pr : Proc) (r : Outcome) (fd : ℕ) (pc : Pc) : Proc :=
  if r = .ok ∧ pr.table.get fd ≠ none then { pr with table := pr.table.put fd none }.goto pc
  else pr.goto .failed

/-- A step of a process, with what becomes of the file. -/
def process (file : Option (List UInt8)) (pr : Proc) (r : Outcome) :
    Option (Option (List UInt8) × Proc) :=
  match pr.pc with
  | .open =>
      if r = .ok then
        some (some (file.getD []),
          { pr with table := pr.table.alloc (.file 0 false), fd := pr.table.free }.goto .write)
      else some (file, pr.goto .failed)
  | .write => some (writes file pr r pr.fd abcde .close)
  | .close => some (file, closes pr r pr.fd .openAppend)
  | .openAppend =>
      if r = .ok ∧ file ≠ none then
        some (file,
          { pr with table := pr.table.alloc (.file 0 true), fd_new := pr.table.free }.goto .lseek)
      else some (file, pr.goto .failed)
  | .lseek =>
      match r, pr.table.get pr.fd with
      | .ok, some (.file _ append) =>
          some (file, { pr with table := pr.table.put pr.fd (some (.file 0 append)) }.goto
            .writeAppend)
      | .ok, some .other => some (file, pr.goto .writeAppend)
      | _, _ => some (file, pr.goto .failed)
  | .writeAppend => some (writes file pr r pr.fd_new digits .closeAppend)
  | .closeAppend => some (file, closes pr r pr.fd_new .returned)
  | .returned | .failed | .exited => none

/-! ### Any number of processes -/

section

variable {ι : Type*} [DecidableEq ι]

/-- The file, if it exists, and the processes. -/
structure St (ι : Type*) where
  file : Option (List UInt8)
  procs : ι → Proc

/-- The process `p` makes a step. -/
def next (s : St ι) (c : ι × Outcome) : Option (St ι × Unit) :=
  (process s.file (s.procs c.1) c.2).map fun r =>
    (⟨r.1, Function.update s.procs c.1 r.2⟩, ())

/-- The file has the contents `c`, and the processes have any descriptors. -/
structure Init (c : Option (List UInt8)) (s : St ι) : Prop where
  file : s.file = c
  pc : ∀ p, (s.procs p).pc = .open

abbrev Label (ι : Type*) := (ι × Outcome) × Unit

/-- Processes that run `append.c` with the same file. -/
def system (ι : Type*) [DecidableEq ι] (c : Option (List UInt8)) : Lts (St ι) (Label ι) :=
  Lts.ofNext (Init c) next

/-- The runs in which no call fails and every write is complete. -/
def successful (ι : Type*) [DecidableEq ι] (c : Option (List UInt8)) : Lts (St ι) (Label ι) :=
  (system ι c).restrict fun _ a => a.1.2 = .ok

end

/-! ### One process -/

/-- The order of the program points. -/
def Pc.place : Pc → ℕ
  | .open => 0
  | .write => 1
  | .close => 2
  | .openAppend => 3
  | .lseek => 4
  | .writeAppend => 5
  | .closeAppend => 6
  | .returned => 7
  | .failed => 8
  | .exited => 9

/-- All numbers below the descriptor are taken. -/
def Lowest (pr : Proc) : Prop := ∀ m < pr.fd, pr.table.get m ≠ none

/-- **What holds of one process.**  The number that it has closed stays the lowest free one, so it
is the number that it gets when it opens the file again. -/
def Local (pr : Proc) : Prop :=
  match pr.pc with
  | .open | .returned => True
  | .write => pr.table.get pr.fd = some (.file 0 false) ∧ Lowest pr
  | .close => pr.table.get pr.fd ≠ none ∧ Lowest pr
  | .openAppend => pr.table.free = pr.fd
  | .lseek | .writeAppend => pr.fd_new = pr.fd ∧ pr.table.get pr.fd = some (.file 0 true)
  | .closeAppend => pr.table.get pr.fd_new ≠ none
  | .failed | .exited => False

/-- What the step of a process does to the file. -/
def effect (pc : Pc) (file : Option (List UInt8)) : Option (List UInt8) :=
  match pc with
  | .open => some (file.getD [])
  | .write => some (abcde ++ (file.getD []).drop 5)
  | .writeAppend => some (file.getD [] ++ digits)
  | _ => file

theorem overwrite_eq (bs : List UInt8) :
    (OpenFile.write ⟨bs, 0⟩ abcde).bytes = abcde ++ bs.drop 5 :=
  OpenFile.write_bytes_inside (by simp [abcde]) (Nat.zero_le _)

theorem append_eq (bs : List UInt8) :
    (OpenFile.write ⟨bs, bs.length⟩ digits).bytes = bs ++ digits := by
  rw [OpenFile.write_bytes_past (by simp [digits]) (le_refl _)]
  simp

theorem writes_ok (file : Option (List UInt8)) (bs : List UInt8) (pc : Pc) {pr : Proc}
    {fd pos : ℕ} {append : Bool} (hget : pr.table.get fd = some (.file pos append)) :
    ∃ end_, writes file pr .ok fd bs pc =
      (some (OpenFile.write ⟨file.getD [], if append then (file.getD []).length else pos⟩ bs).bytes,
        { pr with table := pr.table.put fd (some (.file end_ append)) }.goto pc) := by
  simp only [writes, writeTo, Outcome.limit, hget, reduceCtorEq, if_false, List.take_length,
    lt_irrefl]
  exact ⟨_, rfl⟩

/-- What is below the descriptor stays taken. -/
theorem Lowest.put {pr : Proc} (h : Lowest pr) (d : Option Desc) :
    ∀ m < pr.fd, (pr.table.put pr.fd d).get m ≠ none := by
  intro m hm
  rw [FdTable.get_put_of_ne (Nat.ne_of_lt hm)]
  exact h m hm

theorem closes_ok {pr : Proc} {fd : ℕ} {pc : Pc} (hget : pr.table.get fd ≠ none) :
    closes pr .ok fd pc = { pr with table := pr.table.put fd none }.goto pc :=
  if_pos ⟨rfl, hget⟩

/-- **Every call succeeds**: a process that has not returned makes its step and comes one
further. -/
theorem process_ok {file : Option (List UInt8)} {pr : Proc} (hl : Local pr)
    (hfile : 0 < pr.pc.place → file ≠ none) (hlt : pr.pc.place < 7) :
    ∃ pr', process file pr .ok = some (effect pr.pc file, pr') ∧ Local pr' ∧
      pr'.pc.place = pr.pc.place + 1 := by
  cases hpc : pr.pc with
  | «open» =>
      refine ⟨{ pr with table := pr.table.alloc (.file 0 false), fd := pr.table.free }.goto .write,
        by simp only [process, hpc, if_true]; rfl, ?_, rfl⟩
      exact ⟨FdTable.get_alloc_self _ _, fun m hm => FdTable.get_alloc_of_lt hm _⟩
  | write =>
      simp only [Local, hpc] at hl
      obtain ⟨hget, hlowest⟩ := hl
      obtain ⟨pos, hw⟩ := writes_ok file abcde .close hget
      refine ⟨_, by simp only [process, hpc, hw, Bool.false_eq_true, if_false, overwrite_eq]; rfl,
        ?_, rfl⟩
      refine ⟨?_, hlowest.put _⟩
      change (pr.table.put pr.fd _).get pr.fd ≠ none
      rw [FdTable.get_put_self (by rw [hget]; simp)]
      simp
  | close =>
      simp only [Local, hpc] at hl
      obtain ⟨hget, hlowest⟩ := hl
      refine ⟨_, by simp only [process, hpc, closes_ok hget]; rfl, ?_, rfl⟩
      exact FdTable.free_eq (FdTable.get_put_self hget none) (hlowest.put none)
  | openAppend =>
      simp only [Local, hpc] at hl
      have hfile : file ≠ none := hfile (by rw [hpc]; decide)
      refine ⟨{ pr with table := pr.table.alloc (.file 0 true), fd_new := pr.table.free }.goto
          .lseek, by simp [process, hpc, hfile, effect, Proc.goto], ?_, rfl⟩
      refine ⟨hl, ?_⟩
      change (pr.table.alloc _).get pr.fd = _
      rw [← hl]
      exact FdTable.get_alloc_self _ _
  | lseek =>
      simp only [Local, hpc] at hl
      obtain ⟨hfd, hget⟩ := hl
      refine ⟨{ pr with table := pr.table.put pr.fd (some (.file 0 true)) }.goto .writeAppend,
        by simp only [process, hpc, hget]; rfl, ?_, rfl⟩
      exact ⟨hfd, FdTable.get_put_self (by rw [hget]; simp) _⟩
  | writeAppend =>
      simp only [Local, hpc] at hl
      obtain ⟨hfd, hget⟩ := hl
      rw [← hfd] at hget
      obtain ⟨pos, hw⟩ := writes_ok file digits .closeAppend hget
      refine ⟨_, by simp only [process, hpc, hw, if_true, append_eq]; rfl, ?_, rfl⟩
      change (pr.table.put pr.fd_new _).get pr.fd_new ≠ none
      rw [FdTable.get_put_self (by rw [hget]; simp)]
      simp
  | closeAppend =>
      simp only [Local, hpc] at hl
      refine ⟨_, by simp only [process, hpc, closes_ok hl]; rfl, ?_, rfl⟩
      change True
      trivial
  | returned | failed | exited => simp [hpc, Pc.place] at hlt

/-! ### All processes -/

section

variable {ι : Type*} [Fintype ι]

/-- "12345", `n` times. -/
def appended (n : ℕ) : List UInt8 := (List.replicate n digits).flatten

theorem appended_succ (n : ℕ) : appended (n + 1) = appended n ++ digits := by
  simp [appended, List.replicate_succ']

/-- The file, with the old contents `c`, after the first write and `n` appends. -/
def content (c : Option (List UInt8)) (n : ℕ) : List UInt8 :=
  abcde ++ (c.getD []).drop 5 ++ appended n

/-- Writing "abcde" again changes nothing. -/
theorem overwrite_content (c : Option (List UInt8)) (n : ℕ) :
    abcde ++ (content c n).drop 5 = content c n := by
  simp [content, abcde]

theorem content_append (c : Option (List UInt8)) (n : ℕ) :
    content c n ++ digits = content c (n + 1) := by
  simp [content, appended_succ]

theorem content_zero (c : Option (List UInt8)) : abcde ++ (c.getD []).drop 5 = content c 0 := by
  simp [content, appended]

/-- The process has written "12345". -/
def done (pr : Proc) : ℕ := if 6 ≤ pr.pc.place then 1 else 0

/-- **What holds of all processes**, after the steps `as`. -/
structure Inv (c : Option (List UInt8)) (as : List (Label ι)) (s : St ι) : Prop where
  locals : ∀ p, Local (s.procs p)
  made : ∀ p, 0 < (s.procs p).pc.place → s.file ≠ none
  /-- Before the first write the file is as it was. -/
  before : (∀ p, (s.procs p).pc.place < 2) → s.file.getD [] = c.getD []
  /-- After it, it has "abcde" at the beginning and all that has been appended at the end. -/
  after : ∀ p, 2 ≤ (s.procs p).pc.place → s.file.getD [] = content c (∑ q, done (s.procs q))
  steps : as.length = ∑ q, (s.procs q).pc.place

theorem inv_of_init {c : Option (List UInt8)} {s : St ι} (h : Init c s) : Inv c [] s where
  locals p := by simp [Local, h.pc p]
  made p hlt := by simp [h.pc p, Pc.place] at hlt
  before _ := by rw [h.file]
  after p hle := by simp [h.pc p, Pc.place] at hle
  steps := by simp [h.pc, Pc.place]

variable [DecidableEq ι]

/-- What a step of the successful runs is. -/
theorem step_eq {c : Option (List UInt8)} {as : List (Label ι)} {s s' : St ι} {a : Label ι}
    (hi : Inv c as s) (h : (successful ι c).step s a s') :
    ∃ p pr', s' = ⟨effect (s.procs p).pc s.file, Function.update s.procs p pr'⟩ ∧ Local pr' ∧
      pr'.pc.place = (s.procs p).pc.place + 1 ∧ (s.procs p).pc.place < 7 := by
  obtain ⟨⟨p, r⟩, u⟩ := a
  obtain ⟨hstep, hok⟩ := h
  obtain rfl : r = .ok := hok
  obtain ⟨⟨file, pr₁⟩, hprocess, heq⟩ := Option.map_eq_some_iff.1 hstep
  have hlt : (s.procs p).pc.place < 7 := by
    have hl := hi.locals p
    cases hpc : (s.procs p).pc with
    | returned => simp [process, hpc] at hprocess
    | failed | exited => simp [Local, hpc] at hl
    | _ => simp [Pc.place]
  obtain ⟨pr', hpr, hl', hplace⟩ := process_ok (hi.locals p) (hi.made p) hlt
  obtain ⟨rfl, rfl⟩ := Prod.mk.inj (Option.some.inj (hprocess.symm.trans hpr))
  exact ⟨p, _, (Prod.mk.inj heq).1.symm, hl', hplace, hlt⟩

theorem effect_ne_none {pc : Pc} {file : Option (List UInt8)} (h : 0 < pc.place → file ≠ none) :
    effect pc file ≠ none := by
  cases pc with
  | «open» | write | writeAppend => simp [effect]
  | close | openAppend | lseek | closeAppend | returned | failed | exited => exact h (by decide)

/-- The contents of the file after a step of the process `p`. -/
theorem content_step {c : Option (List UInt8)} {as : List (Label ι)} {s : St ι} (hi : Inv c as s)
    {p q : ι} {pr' : Proc} (hplace : pr'.pc.place = (s.procs p).pc.place + 1)
    (hlt : (s.procs p).pc.place < 7) (hq : 2 ≤ (Function.update s.procs p pr' q).pc.place) :
    (effect (s.procs p).pc s.file).getD []
      = content c (∑ u, done (Function.update s.procs p pr' u)) := by
  have hdone := Lts.sum_update (fun _ => done) s.procs p pr'
  have hafter := hi.after p
  rw [done, done, hplace] at hdone
  cases hpc : (s.procs p).pc with
  | «open» =>
      -- `p` is not past the first write, so another process is
      have hne : q ≠ p := by
        rintro rfl
        rw [Function.update_self, hplace, hpc] at hq
        exact absurd hq (by decide)
      rw [Function.update_of_ne hne] at hq
      simp [hpc, Pc.place] at hdone
      rw [hdone]
      exact hi.after q hq
  | write =>
      simp [hpc, Pc.place] at hdone
      rw [hdone]
      change abcde ++ (s.file.getD []).drop 5 = _
      by_cases hwritten : ∃ u, 2 ≤ (s.procs u).pc.place
      · obtain ⟨u, hu⟩ := hwritten
        rw [hi.after u hu, overwrite_content]
      · -- this is the first write
        have hall : ∀ u, (s.procs u).pc.place < 2 := by simpa using hwritten
        have hzero : ∑ u, done (s.procs u) = 0 :=
          Finset.sum_eq_zero fun u _ => if_neg (by have := hall u; omega)
        rw [hi.before hall, hzero, content_zero]
  | close | openAppend | lseek | closeAppend =>
      rw [hpc] at hafter hdone
      simp [Pc.place] at hdone
      rw [hdone]
      exact hafter (by decide)
  | writeAppend =>
      rw [hpc] at hafter hdone
      simp [Pc.place] at hdone
      rw [hdone, ← content_append, ← hafter (by decide)]
      rfl
  | returned | failed | exited => simp [hpc, Pc.place] at hlt

/-- **Every step keeps the invariant.** -/
theorem Inv.step {c : Option (List UInt8)} {as : List (Label ι)} {s s' : St ι} {a : Label ι}
    (hi : Inv c as s) (h : (successful ι c).step s a s') : Inv c (as ++ [a]) s' := by
  obtain ⟨p, pr', rfl, hl', hplace, hlt⟩ := step_eq hi h
  have hsteps : ∑ q, (Function.update s.procs p pr' q).pc.place + (s.procs p).pc.place
      = ∑ q, (s.procs q).pc.place + pr'.pc.place :=
    Lts.sum_update (fun _ pr => pr.pc.place) s.procs p pr'
  constructor
  case locals =>
    intro q
    rcases eq_or_ne q p with rfl | hq
    · simpa using hl'
    · simpa [Function.update_of_ne hq] using hi.locals q
  case made => exact fun _ _ => effect_ne_none (hi.made p)
  case before =>
    intro hall
    have hp := hall p
    simp only [Function.update_self, hplace] at hp
    have hpc : (s.procs p).pc = .open := by
      cases hpc : (s.procs p).pc with
      | «open» => rfl
      | _ => simp [hpc, Pc.place] at hp
    rw [hpc]
    refine hi.before fun q => ?_
    rcases eq_or_ne q p with rfl | hq
    · omega
    · simpa [Function.update_of_ne hq] using hall q
  case after => exact fun q hq => content_step hi hplace hlt hq
  case steps =>
    rw [List.length_append, List.length_singleton, hi.steps]
    change _ = ∑ q, (Function.update s.procs p pr' q).pc.place
    omega

theorem inv {c : Option (List UInt8)} {as : List (Label ι)} {s : St ι}
    (h : (successful ι c).Exec as s) : Inv c as s :=
  Lts.Exec.invariant (fun _ => inv_of_init) (fun _ _ _ _ _ hi hs => hi.step hs) h

/-- **Nothing that is appended is lost**, for any number of processes, any contents of the file and
any descriptors.  No call fails, and `lseek` is called on the descriptor just opened; a process that
has not returned can make its next step, and there are at most seven steps for each; and when all
have returned, the file has what they have written. -/
theorem appends_lose_nothing [Nonempty ι] {c : Option (List UInt8)} {as : List (Label ι)} {s : St ι}
    (h : (successful ι c).Exec as s) :
    (∀ p, (s.procs p).pc ≠ .failed ∧ (s.procs p).pc ≠ .exited) ∧
    (∀ p, (s.procs p).pc = .lseek →
      (s.procs p).fd = (s.procs p).fd_new ∧ (s.procs p).table.get (s.procs p).fd ≠ none) ∧
    (∀ p, (s.procs p).pc ≠ .returned → ∃ s', (successful ι c).step s ((p, .ok), ()) s') ∧
    as.length ≤ 7 * Fintype.card ι ∧
    ((∀ p, (s.procs p).pc = .returned) → s.file = some (content c (Fintype.card ι))) := by
  have hi := inv h
  have hrunning : ∀ p, (s.procs p).pc ≠ .failed ∧ (s.procs p).pc ≠ .exited := by
    intro p
    have hl := hi.locals p
    constructor <;> intro hpc <;> simp [Local, hpc] at hl
  have hplace : ∀ p, (s.procs p).pc.place ≤ 7 ∧
      ((s.procs p).pc ≠ .returned → (s.procs p).pc.place < 7) := by
    intro p
    obtain ⟨hfailed, hexited⟩ := hrunning p
    cases hpc : (s.procs p).pc with
    | failed => exact absurd hpc hfailed
    | exited => exact absurd hpc hexited
    | _ => simp [Pc.place]
  refine ⟨hrunning, fun p hpc => ?_, fun p hpc => ?_, ?_, fun hall => ?_⟩
  · have hl := hi.locals p
    simp only [Local, hpc] at hl
    exact ⟨hl.1.symm, by rw [hl.2]; simp⟩
  · obtain ⟨pr', hpr, -, -⟩ := process_ok (hi.locals p) (hi.made p) ((hplace p).2 hpc)
    exact ⟨_, Option.map_eq_some_iff.2 ⟨_, hpr, rfl⟩, rfl⟩
  · calc as.length = ∑ p, (s.procs p).pc.place := hi.steps
      _ ≤ ∑ _p : ι, 7 := Finset.sum_le_sum fun p _ => (hplace p).1
      _ = Fintype.card ι * 7 := Finset.sum_const_nat fun _ _ => rfl
      _ = 7 * Fintype.card ι := mul_comm _ _
  · obtain ⟨p⟩ := ‹Nonempty ι›
    have hdone : ∑ q, done (s.procs q) = Fintype.card ι := by
      rw [Finset.sum_congr rfl fun q _ => show done (s.procs q) = 1 by rw [done, hall q]; rfl]
      simp
    have hafter := hi.after p (by rw [hall p]; decide)
    have hmade := hi.made p (by rw [hall p]; decide)
    obtain ⟨bytes, hfile⟩ := Option.ne_none_iff_exists'.1 hmade
    rw [hdone, hfile, Option.getD_some] at hafter
    rw [hfile, hafter]

end

/-- Two processes; the descriptor 0 of the first one is free, and 0 to 2 of the other are taken. -/
def started : St (Fin 2) :=
  ⟨some [120, 121], fun p =>
    if p = 0 then ⟨[none, some .other], .open, 0, 0⟩
    else ⟨[some .other, some .other, some .other], .open, 0, 0⟩⟩

/-- They take turns, the first one ahead. -/
def turns : List (Fin 2 × Outcome) :=
  [(0, .ok), (0, .ok)] ++ (List.replicate 5 [(0, .ok), (1, .ok)]).flatten ++ [(1, .ok), (1, .ok)]

theorem appends_lose_nothing_turns : ∃ as s, (successful (Fin 2) (some [120, 121])).Exec as s ∧
    s.file = some (abcde ++ digits ++ digits) := by
  have h : (Lts.perform next started turns).map (fun r => ((r.1.procs 0).pc, (r.1.procs 1).pc))
      = some (.returned, .returned) := by decide
  obtain ⟨⟨s, es⟩, hperform, hs⟩ := Option.map_eq_some_iff.1 h
  obtain ⟨h₀, h₁⟩ := Prod.mk.inj hs
  have hok : ∀ c ∈ turns, c.2 = .ok := by decide
  have hex : (successful (Fin 2) (some [120, 121])).Exec (turns.zip es) s :=
    Lts.Exec.of_perform ⟨rfl, by decide⟩ hperform fun c hc _ _ => hok c hc
  obtain ⟨-, -, -, -, hfile⟩ := appends_lose_nothing hex
  exact ⟨_, s, hex, hfile (Fin.forall_fin_two.2 ⟨h₀, h₁⟩)⟩

end Append
