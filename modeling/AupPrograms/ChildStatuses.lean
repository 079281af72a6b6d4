/-
**Printing how the children have ended** (`assignment_5/print_child_statuses.c`).

The parent forks `num_children` children, the `i`-th of which ends with `exit(i)`, and keeps their
process ids in an array.  After a while it goes through the array once and asks for each child
whether it has ended, without waiting for it.

Which children have ended when the scan asks for them is a parameter, and so are the results of
`malloc` and `fork`.  A process id is an `int`, and the processes that there are have different
ones; this bounds the number of children, so the counter of the loop that forks does not overflow.
Of the argument of `exit` only the low eight bits reach the parent.

Main definitions:

* `ChildStatuses.Env` — the results of the calls of a run;
* `ChildStatuses.main` — the program, with fuel for its loops;
* `ChildStatuses.waitpid`, `ChildStatuses.WEXITSTATUS` — the call that asks for a child, and what
  becomes of its answer;
* `ChildStatuses.ownLine` — the line that a child should get.

Main results:

* `ChildStatuses.runs_reports` — **what a run prints**;
* `ChildStatuses.own_lines_iff` — **when each child gets its own line.**
-/

import AupPrograms.CInt
import AupPrograms.FileCall
import AupPrograms.Loop
import Mathlib.Order.Interval.Finset.Nat
import Mathlib.Data.Int.Interval

set_option relaxedAutoImplicit false
set_option autoImplicit false

namespace ChildStatuses

open FileCall (Exit)

/-! ### The status of a child -/

/-- What the kernel keeps of a call of `exit`. -/
def exitStatus (status : ℤ) : ℕ := (status % 256).toNat <<< 8

/-- No signal has ended the process. -/
def WIFEXITED (status : ℕ) : Bool := status &&& 0x7f == 0

/-- The argument of `exit`, as far as it has been kept. -/
def WEXITSTATUS (status : ℕ) : ℕ := (status &&& 0xff00) >>> 8

theorem wifexited_exitStatus (status : ℤ) : WIFEXITED (exitStatus status) = true := by
  have hmask : (0x7f : ℕ) = 2 ^ 7 - 1 := rfl
  rw [WIFEXITED, exitStatus, beq_iff_eq, hmask, Nat.and_two_pow_sub_one_eq_mod, Nat.shiftLeft_eq]
  omega

/-- **Only the low eight bits arrive.** -/
theorem wexitstatus_exitStatus (status : ℤ) :
    (WEXITSTATUS (exitStatus status) : ℤ) = status % 256 := by
  have hmask : (0xff00 : ℕ) >>> 8 = 2 ^ 8 - 1 := rfl
  have hshift : (status % 256).toNat <<< 8 >>> 8 = (status % 256).toNat :=
    Nat.shiftLeft_shiftRight _ _
  rw [WEXITSTATUS, exitStatus, Nat.shiftRight_and_distrib, hshift, hmask,
    Nat.and_two_pow_sub_one_eq_mod]
  omega

/-! ### The calls -/

/-- The results of the calls.  A process id is not given to two processes at a time. -/
structure Env where
  /-- `malloc` returns memory. -/
  malloc : Bool
  /-- The process id of the parent. -/
  self : ℤ
  /-- What the `i`-th call of `fork` returns in the parent. -/
  fork : ℕ → ℤ
  /-- The `i`-th child has exited when the scan asks for it. -/
  exited : ℕ → Bool
  /-- The initial value of `status`. -/
  status : ℕ
  self_pid : 0 < self ∧ self < 2 ^ 31
  fork_pid : ∀ i, fork i = -1 ∨ 0 < fork i ∧ fork i < 2 ^ 31
  fork_ne_self : ∀ i, fork i ≠ self
  fork_ne : ∀ i j, 0 < i → i < j → (∀ k, 0 < k → k ≤ j → fork k ≠ -1) → fork i ≠ fork j

/-- A value stored in an `int`. -/
def int (x : ℤ) : ℤ := CInt.wrap 4 x

/-- What a child does: the time that it has slept, if it prints it, and the argument of `exit`. -/
def child (num_children sleep_child i : ℤ) : Option ℤ × ℤ :=
  if i = 1 ∨ i = num_children - 2 then (some (int (sleep_child * 10)), i) else (none, i)

/-- A child that has not been waited for: its number, its process id and what it calls `exit`
with. -/
structure Child where
  number : ℕ
  pid : ℤ
  exit : ℤ
  deriving DecidableEq

/-- `waitpid(pid, &status, WNOHANG)`: the result, the status and the children that are left. -/
def waitpid (E : Env) (children : List Child) (pid : ℤ) (status : ℕ) : ℤ × ℕ × List Child :=
  match children.find? (·.pid == pid) with
  | none => (-1, status, children)
  | some c =>
      if E.exited c.number then (pid, exitStatus c.exit, children.erase c)
      else (0, status, children)

/-! ### The program -/

/-- A line of the scan. -/
inductive Line
  | notTerminated (pid : ℤ)
  | terminated (pid status : ℤ)
  deriving DecidableEq

/-- How the parent ends, and what the scan has printed. -/
structure End where
  exit : Exit
  lines : List Line
  deriving DecidableEq

/-- The state of the loop that forks. -/
structure Forking where
  i : ℤ
  pids : List ℤ
  children : List Child

/-- The body of `for (i = 1; i <= num_children; i++)`, in the parent; the child does not come back
from its call of `exit`. -/
def forkBody (E : Env) (num_children sleep_child : ℤ) (s : Forking) : Forking ⊕ Option Forking :=
  if s.i ≤ num_children then
    let child_pid := E.fork s.i.toNat
    if child_pid < 0 then .inr none
    else
      let c : Child := ⟨s.i.toNat, child_pid, (child num_children sleep_child s.i).2⟩
      .inl ⟨int (s.i + 1), s.pids ++ [child_pid], s.children ++ [c]⟩
  else .inr (some s)

/-- The state of the scan. -/
structure Scanning where
  i : ℤ
  status : ℕ
  children : List Child
  lines : List Line

/-- The body of `for (i = 0; i < num_children; i++)`. -/
def scanBody (E : Env) (num_children : ℤ) (pids : List ℤ) (s : Scanning) : Scanning ⊕ End :=
  if s.i < num_children then
    let pid := pids.getD s.i.toNat 0
    let (ret, status, children) := waitpid E s.children pid s.status
    if ret = -1 then .inr ⟨.failed, s.lines⟩
    else
      let line :=
        if ret = 0 then .notTerminated pid
        else .terminated pid (if WIFEXITED status then WEXITSTATUS status else 0)
      .inl ⟨int (s.i + 1), status, children, s.lines ++ [line]⟩
  else .inr ⟨.returned, s.lines⟩

/-- The parent; the result is `none` when the fuel ran out. -/
def main (E : Env) (fuel : ℕ) (num_children sleep_child : ℤ) : Option End :=
  if E.malloc = false then some ⟨.failed, []⟩
  else
    match Loop.run (forkBody E num_children sleep_child) fuel ⟨1, [], []⟩ with
    | none => none
    | some none => some ⟨.failed, []⟩
    | some (some s) =>
        Loop.run (scanBody E num_children s.pids) fuel ⟨0, E.status, s.children, []⟩

/-- A run of the program ends. -/
def Runs (E : Env) (num_children sleep_child : ℤ) (e : End) : Prop :=
  ∃ fuel, main E fuel num_children sleep_child = some e

/-- More fuel does not change what a run prints. -/
theorem main_mono {E : Env} {n m : ℕ} (hle : n ≤ m) {num_children sleep_child : ℤ} {e : End}
    (h : main E n num_children sleep_child = some e) :
    main E m num_children sleep_child = some e := by
  unfold main at h ⊢
  split
  · rwa [if_pos ‹_›] at h
  · rw [if_neg ‹_›] at h
    cases hrun : Loop.run (forkBody E num_children sleep_child) n ⟨1, [], []⟩ with
    | none => simp [hrun] at h
    | some r =>
        rw [Loop.run_mono hle hrun]
        rw [hrun] at h
        cases r with
        | none => exact h
        | some s => exact Loop.run_mono hle h

theorem Runs.unique {E : Env} {num_children sleep_child : ℤ} {e e' : End}
    (h : Runs E num_children sleep_child e) (h' : Runs E num_children sleep_child e') : e = e' :=
  Loop.unique_of_mono (fun _ _ _ hle => main_mono hle) h h'

/-! ### The process ids -/

/-- The calls of `fork` for `N` children succeed. -/
def Forked (E : Env) (N : ℕ) : Prop := ∀ i, 0 < i → i ≤ N → E.fork i ≠ -1

theorem Forked.pos {E : Env} {N : ℕ} (h : Forked E N) {i : ℕ} (hi : 0 < i) (hN : i ≤ N) :
    0 < E.fork i := by
  rcases E.fork_pid i with hfail | hpid
  · exact absurd hfail (h i hi hN)
  · exact hpid.1

/-- Different children have different process ids. -/
theorem Forked.inj {E : Env} {N : ℕ} (h : Forked E N) {i j : ℕ} (hi : 0 < i) (hiN : i ≤ N)
    (hj : 0 < j) (hjN : j ≤ N) (heq : E.fork i = E.fork j) : i = j := by
  rcases Nat.lt_trichotomy i j with hlt | hij | hgt
  · exact absurd heq (E.fork_ne i j hi hlt fun k hk hkj => h k hk (hkj.trans hjN))
  · exact hij
  · exact absurd heq.symm (E.fork_ne j i hj hgt fun k hk hki => h k hk (hki.trans hiN))

/-- There are not more children than process ids, of which the parent has one. -/
theorem Forked.lt {E : Env} {N : ℕ} (h : Forked E N) : N < 2 ^ 31 - 1 := by
  obtain ⟨b, hb⟩ : ∃ b : ℤ, b = 2 ^ 31 - 1 := ⟨_, rfl⟩
  have himage : (Finset.Icc 1 N).image E.fork ⊆ (Finset.Icc 1 b).erase E.self := by
    intro p hp
    obtain ⟨i, hi, rfl⟩ := Finset.mem_image.1 hp
    obtain ⟨hpos, hN⟩ := Finset.mem_Icc.1 hi
    rcases E.fork_pid i with hfail | hpid
    · exact absurd hfail (h i hpos hN)
    · exact Finset.mem_erase.2 ⟨E.fork_ne_self i, Finset.mem_Icc.2 ⟨hpid.1, by omega⟩⟩
  have hinj : ((Finset.Icc 1 N).image E.fork).card = N := by
    rw [Finset.card_image_of_injOn, Nat.card_Icc, Nat.add_sub_cancel]
    intro i hi j hj heq
    obtain ⟨hi₁, hiN⟩ := Finset.mem_Icc.1 hi
    obtain ⟨hj₁, hjN⟩ := Finset.mem_Icc.1 hj
    exact h.inj hi₁ hiN hj₁ hjN heq
  have hself : E.self ∈ Finset.Icc 1 b :=
    Finset.mem_Icc.2 ⟨E.self_pid.1, by have := E.self_pid.2; omega⟩
  have hcard := Finset.card_le_card himage
  rw [hinj, Finset.card_erase_of_mem hself, Int.card_Icc] at hcard
  omega

/-! ### The loop that forks -/

section

variable {E : Env} {N : ℕ}

theorem child_exit (num_children sleep_child i : ℤ) : (child num_children sleep_child i).2 = i := by
  unfold child
  split <;> rfl

theorem int_eq {x : ℤ} (hlo : 0 ≤ x) (hhi : x < 2 ^ 31) : int x = x :=
  CInt.wrap_eq_self (by omega) (by omega)

/-- The first `n` process ids. -/
def pidsOf (E : Env) (n : ℕ) : List ℤ := (List.range n).map fun k => E.fork (k + 1)

/-- The first `n` children. -/
def childrenOf (E : Env) (n : ℕ) : List Child :=
  (List.range n).map fun k => ⟨k + 1, E.fork (k + 1), (k + 1 : ℕ)⟩

theorem mem_childrenOf {n : ℕ} {c : Child} :
    c ∈ childrenOf E n ↔
      0 < c.number ∧ c.number ≤ n ∧ c = ⟨c.number, E.fork c.number, c.number⟩ := by
  rw [childrenOf, List.mem_map]
  constructor
  · rintro ⟨k, hk, rfl⟩
    have hlt := List.mem_range.1 hk
    exact ⟨Nat.succ_pos k, hlt, rfl⟩
  · rintro ⟨hpos, hle, hc⟩
    obtain ⟨k, hk⟩ : ∃ k, c.number = k + 1 := Nat.exists_eq_succ_of_ne_zero hpos.ne'
    refine ⟨k, List.mem_range.2 (by omega), ?_⟩
    rw [← hk]
    exact hc.symm

theorem nodup_childrenOf (E : Env) (n : ℕ) : (childrenOf E n).Nodup := by
  refine List.Nodup.map (fun k k' heq => ?_) List.nodup_range
  exact Nat.succ_injective (congrArg Child.number heq)

/-- **The loop forks all children**, and keeps their process ids in the order of their creation. -/
theorem forks_all (h : Forked E N) (sleep_child : ℤ) :
    Loop.Returns (forkBody E N sleep_child) ⟨1, [], []⟩
      (some ⟨N + 1, pidsOf E N, childrenOf E N⟩) := by
  have hlt := h.lt
  refine Loop.returns_of_sequence (k := N)
    (x := fun j => (⟨j + 1, pidsOf E j, childrenOf E j⟩ : Forking)) ?_ ?_
  · intro j hj
    have hnum : ((j : ℤ) + 1).toNat = j + 1 := by omega
    have hpos := h.pos (Nat.succ_pos j) hj
    have hnext : int ((j : ℤ) + 1 + 1) = (j + 1 : ℕ) + 1 := by
      rw [int_eq (by omega) (by omega)]
      rfl
    have hle : (j : ℤ) + 1 ≤ N := by omega
    simp only [forkBody, if_pos hle, hnum, if_neg hpos.not_gt, hnext, child_exit]
    simp [pidsOf, childrenOf, List.range_succ]
  · have hend : ¬ (N : ℤ) + 1 ≤ N := by omega
    simp only [forkBody, if_neg hend]

/-! ### The scan -/

/-- The children that are left when the scan has asked for the first `k` of `n`. -/
def left (E : Env) (n k : ℕ) : List Child :=
  (childrenOf E n).filter fun c => k < c.number || !E.exited c.number

/-- The line that the scan prints for the `i`-th child. -/
def printed (E : Env) (i : ℕ) : Line :=
  if E.exited i then .terminated (E.fork i) ((i : ℤ) % 256) else .notTerminated (E.fork i)

/-- `status` when the scan has asked for the first `k` children. -/
def statusAfter (E : Env) : ℕ → ℕ
  | 0 => E.status
  | k + 1 => if E.exited (k + 1) then exitStatus (k + 1 : ℕ) else statusAfter E k

/-- The process id of a child finds this child. -/
theorem find_left (h : Forked E N) {k : ℕ} (hk : k < N) :
    (left E N k).find? (·.pid == E.fork (k + 1)) = some ⟨k + 1, E.fork (k + 1), (k + 1 : ℕ)⟩ := by
  have hmem : (⟨k + 1, E.fork (k + 1), (k + 1 : ℕ)⟩ : Child) ∈ left E N k := by
    refine List.mem_filter.2 ⟨mem_childrenOf.2 ⟨Nat.succ_pos k, hk, rfl⟩, ?_⟩
    simp
  cases hfind : (left E N k).find? (·.pid == E.fork (k + 1)) with
  | none =>
      have hno := List.find?_eq_none.1 hfind _ hmem
      simp at hno
  | some c =>
      have hpid : c.pid = E.fork (k + 1) := by simpa using List.find?_some hfind
      obtain ⟨hc, -⟩ := List.mem_filter.1 (List.mem_of_find?_eq_some hfind)
      obtain ⟨hpos, hle, heq⟩ := mem_childrenOf.1 hc
      rw [heq] at hpid
      have hnumber := h.inj hpos hle (Nat.succ_pos k) hk hpid
      rw [heq, hnumber]

/-- A child that has exited is waited for. -/
theorem left_succ_of_exited {k : ℕ} (hexited : E.exited (k + 1) = true) :
    (left E N k).erase ⟨k + 1, E.fork (k + 1), (k + 1 : ℕ)⟩ = left E N (k + 1) := by
  rw [left, ((nodup_childrenOf E N).filter _).erase_eq_filter, List.filter_filter, left]
  refine List.filter_congr fun c hc => ?_
  obtain ⟨-, -, heq⟩ := mem_childrenOf.1 hc
  rcases eq_or_ne c.number (k + 1) with hnumber | hnumber
  · have hself : c = ⟨k + 1, E.fork (k + 1), (k + 1 : ℕ)⟩ := by rw [heq, hnumber]
    simp [hself, hexited]
  · have hne : (c != ⟨k + 1, E.fork (k + 1), (k + 1 : ℕ)⟩) = true :=
      bne_iff_ne.2 fun h => hnumber (by rw [h])
    have hlt : k < c.number ↔ k + 1 < c.number := by omega
    simp only [hne, hlt, Bool.true_and]

/-- One that has not is kept. -/
theorem left_succ_of_running {k : ℕ} (hexited : E.exited (k + 1) = false) :
    left E N k = left E N (k + 1) := by
  refine List.filter_congr fun c _ => ?_
  rcases eq_or_ne c.number (k + 1) with hnumber | hnumber
  · simp [hnumber, hexited]
  · have hlt : k < c.number ↔ k + 1 < c.number := by omega
    simp [hlt]

/-- **What `waitpid` answers** when the scan asks for the next child. -/
theorem waitpid_left (h : Forked E N) {k : ℕ} (hk : k < N) (status : ℕ) :
    waitpid E (left E N k) (E.fork (k + 1)) status =
      if E.exited (k + 1) then (E.fork (k + 1), exitStatus (k + 1 : ℕ), left E N (k + 1))
      else (0, status, left E N (k + 1)) := by
  rw [waitpid, find_left h hk]
  cases hexited : E.exited (k + 1) with
  | true => simp only [hexited, if_true, left_succ_of_exited hexited]
  | false => simp only [hexited, Bool.false_eq_true, if_false, left_succ_of_running hexited]

/-- One iteration of the scan. -/
theorem scanBody_left (h : Forked E N) {k : ℕ} (hk : k < N) (lines : List Line) :
    scanBody E N (pidsOf E N) ⟨k, statusAfter E k, left E N k, lines⟩ =
      .inl ⟨(k + 1 : ℕ), statusAfter E (k + 1), left E N (k + 1),
        lines ++ [printed E (k + 1)]⟩ := by
  have hlt := h.lt
  have hcond : (k : ℤ) < N := by omega
  have hpid : (pidsOf E N).getD k 0 = E.fork (k + 1) := by
    rw [pidsOf, List.getD_eq_getElem _ _ (by simpa using hk), List.getElem_map,
      List.getElem_range]
  have hnext : int ((k : ℤ) + 1) = (k + 1 : ℕ) := by
    rw [int_eq (by omega) (by omega)]
    rfl
  have hpos := h.pos (Nat.succ_pos k) hk
  have hne : E.fork (k + 1) ≠ -1 := h _ (Nat.succ_pos k) hk
  simp only [scanBody, if_pos hcond, Int.toNat_natCast, hpid, waitpid_left h hk, hnext]
  cases hexited : E.exited (k + 1) with
  | true =>
      simp only [if_true, hne, if_false, hpos.ne', wifexited_exitStatus, wexitstatus_exitStatus,
        statusAfter, printed, hexited]
  | false =>
      have hzero : (0 : ℤ) ≠ -1 := by decide
      simp only [Bool.false_eq_true, if_false, if_true, statusAfter, printed, hexited, hzero]

/-- **The scan prints one line for each child.** -/
theorem scan_all (h : Forked E N) :
    Loop.Returns (scanBody E N (pidsOf E N)) ⟨0, E.status, childrenOf E N, []⟩
      ⟨.returned, (List.range N).map fun k => printed E (k + 1)⟩ := by
  have hall : left E N 0 = childrenOf E N := by
    refine List.filter_eq_self.2 fun c hc => ?_
    obtain ⟨hpos, -, -⟩ := mem_childrenOf.1 hc
    simp [hpos]
  have hscan : Loop.Returns (scanBody E N (pidsOf E N))
      ⟨(0 : ℕ), statusAfter E 0, left E N 0, (List.range 0).map fun k => printed E (k + 1)⟩
      ⟨.returned, (List.range N).map fun k => printed E (k + 1)⟩ := by
    refine Loop.returns_of_sequence (k := N)
      (x := fun k => (⟨k, statusAfter E k, left E N k,
        (List.range k).map fun k => printed E (k + 1)⟩ : Scanning)) ?_ ?_
    · intro k hk
      rw [scanBody_left h hk, List.range_succ, List.map_append]
      rfl
    · have hend : ¬ (N : ℤ) < N := by omega
      simp only [scanBody, if_neg hend]
  rwa [hall] at hscan

end

/-- **What a run prints** when no call fails. -/
theorem runs_reports {E : Env} {N : ℕ} (h : Forked E N) (hmalloc : E.malloc = true)
    (sleep_child : ℤ) :
    Runs E N sleep_child ⟨.returned, (List.range N).map fun k => printed E (k + 1)⟩ := by
  obtain ⟨n, hn⟩ := forks_all h sleep_child
  obtain ⟨m, hm⟩ := scan_all h
  have hforks := Loop.run_mono (Nat.le_max_left n m) hn
  have hscan := Loop.run_mono (Nat.le_max_right n m) hm
  refine ⟨max n m, ?_⟩
  rw [main, if_neg (by simp [hmalloc]), hforks]
  exact hscan

/-! ### The number of a child -/

/-- **The line that the `i`-th child should get**: the argument of its `exit`, if it has exited. -/
def ownLine (E : Env) (i : ℕ) : Line :=
  if E.exited i then .terminated (E.fork i) i else .notTerminated (E.fork i)

theorem printed_eq_iff {E : Env} {i : ℕ} :
    printed E i = ownLine E i ↔ (E.exited i = true → i < 256) := by
  cases hexited : E.exited i with
  | true =>
      simp only [printed, ownLine, hexited, if_true, Line.terminated.injEq, true_and, true_imp_iff]
      omega
  | false => simp [printed, ownLine, hexited]

/-- **The scan prints exactly one line for each child, in the order of their creation, with its own
exit argument.** -/
def Reports (E : Env) (N : ℕ) (sleep_child : ℤ) : Prop :=
  ∃ e, Runs E N sleep_child e ∧ e.lines = (List.range N).map fun k => ownLine E (k + 1)

/-- What a run prints, also when there is no memory for no children. -/
theorem reports_iff_printed {E : Env} {N : ℕ} (h : Forked E N)
    (hmalloc : 0 < N → E.malloc = true) (sleep_child : ℤ) :
    Reports E N sleep_child ↔
      (List.range N).map (fun k => printed E (k + 1))
        = (List.range N).map fun k => ownLine E (k + 1) := by
  rcases Nat.eq_zero_or_pos N with rfl | hpos
  · refine iff_of_true ?_ rfl
    cases hm : E.malloc with
    | true => exact ⟨_, runs_reports h hm sleep_child, rfl⟩
    | false =>
        refine ⟨⟨.failed, []⟩, ⟨0, ?_⟩, rfl⟩
        rw [main, if_pos hm]
  · have hrun := runs_reports h (hmalloc hpos) sleep_child
    constructor
    · rintro ⟨e, he, hlines⟩
      rwa [← hrun.unique he] at hlines
    · intro heq
      exact ⟨_, hrun, heq⟩

/-- **When each child gets its own line**: exactly when no child has exited whose number does not
fit into eight bits. -/
theorem own_lines_iff {E : Env} {N : ℕ} (h : Forked E N) (hmalloc : 0 < N → E.malloc = true)
    (sleep_child : ℤ) :
    Reports E N sleep_child ↔ ∀ i, 0 < i → i ≤ N → E.exited i = true → i < 256 := by
  rw [reports_iff_printed h hmalloc, List.map_inj_left]
  constructor
  · intro hall i hpos hle
    obtain ⟨k, rfl⟩ : ∃ k, i = k + 1 := Nat.exists_eq_succ_of_ne_zero hpos.ne'
    exact printed_eq_iff.1 (hall k (List.mem_range.2 hle))
  · intro hall k hk
    exact printed_eq_iff.2 (hall (k + 1) (Nat.succ_pos k) (List.mem_range.1 hk))

/-- A run with 1000 children, of which some have exited when they are asked for. -/
def thousand (exited : ℕ → Bool) : Env where
  malloc := true
  self := 1
  fork i := if i ≤ 1000 then 2 + i else -1
  exited := exited
  status := 0
  self_pid := by omega
  fork_pid i := by
    split
    · exact .inr (by omega)
    · exact .inl rfl
  fork_ne_self i := by split <;> omega
  fork_ne i j hi hij hall := by
    have hj := hall j (by omega) (le_refl j)
    have hi' := hall i hi hij.le
    rw [if_pos (by by_contra hge; simp [if_neg hge] at hi'),
      if_pos (by by_contra hge; simp [if_neg hge] at hj)]
    omega

theorem forked_thousand (exited : ℕ → Bool) {N : ℕ} (hN : N ≤ 1000) :
    Forked (thousand exited) N := by
  intro i _ hi
  have hle : i ≤ 1000 := hi.trans hN
  simp only [thousand, if_pos hle]
  omega

/-- Of three children the second one has exited. -/
theorem own_lines_iff_three : Reports (thousand fun i => i == 2) 3 1 :=
  (own_lines_iff (forked_thousand _ (by decide)) (fun _ => rfl) 1).2 (by
    intro i _ hi _
    omega)

/-- All of 256 children have exited, and the last one is reported with status 0. -/
theorem not_reports : ¬ ∀ (E : Env) (N : ℕ) (sleep_child : ℤ), Forked E N → E.malloc = true →
    Reports E N sleep_child := by
  intro hall
  have h := forked_thousand (fun _ => true) (by decide : 256 ≤ 1000)
  have heq := (reports_iff_printed h (fun _ => rfl) 1).1 (hall _ 256 1 h rfl)
  have hlast := List.map_inj_left.1 heq 255 (List.mem_range.2 (by decide))
  have hlt := printed_eq_iff.1 hlast rfl
  omega

end ChildStatuses
