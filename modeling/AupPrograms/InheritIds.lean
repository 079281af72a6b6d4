/-
**Ids that a child inherits** (`assignment_6/inherit_ids.c`).

The parent prints its ids and forks, the child prints its own, and the parent only sleeps.  The
child starts with a copy of the buffer of the standard output, so what the parent has printed comes
out once more if it has not been written by then.

Main definitions:

* `InheritIds.main` — the program.

Main results:

* `InheritIds.mem_outcomes` — what is written, under any buffering;
* `InheritIds.printed_once_iff` — **when nothing comes out twice**: exactly when the buffer is empty
  at the fork;
* `InheritIds.pending_report` — which is so on a terminal, and not in a file.
-/

import AupPrograms.CText
import AupPrograms.ForkExit

set_option relaxedAutoImplicit false
set_option autoImplicit false

namespace InheritIds

open CText (ascii decimal)
open ForkExit
open ForkJoin (Interleaving interleaving_nil_left writes flatten_writes puts puts_append)
open Stdio (Buffering pending pending_of_flushes pending_of_room)

/-! ### The program -/

/-- The ids of a process, as the calls return them. -/
structure Ids where
  getuid : ℤ
  geteuid : ℤ
  getgid : ℤ
  getegid : ℤ
  getpid : ℤ
  getppid : ℤ

/-- The lines that a process prints. -/
def report (who : String) (ids : Ids) : List UInt8 :=
  [("'s real uid: ", ids.getuid), ("'s effective uid: ", ids.geteuid),
    ("'s real gid: ", ids.getgid), ("'s effective gid: ", ids.getegid),
    ("'s process id: ", ids.getpid), ("'s parent process id: ", ids.getppid)].flatMap fun line =>
      ascii who ++ ascii line.1 ++ decimal line.2 ++ ascii "\n"

/-- **`main`**, with the ids of the two processes and the value of `errno` after a failed `fork`. -/
def main (parent child : Ids) (errno : ℤ) : Prog UInt8 :=
  .print (report "Parent" parent)
    (.fork (.print (report "Child" child) (.exit 0)) (.exit 0) (.exit errno))

variable {B : Buffering UInt8} {parent child : Ids} {errno : ℤ}

/-! ### What is written -/

/-- The outcomes of the program: what has been printed and is still in the buffer at the fork is
written by the parent when it exits, and by the child together with its own lines. -/
inductive Outcomes (B : Buffering UInt8) (parent child : Ids) (errno : ℤ) : Outcome UInt8 → Prop
  | forkFailed : Outcomes B parent child errno (chunks B [] (report "Parent" parent), [errno])
  | forked {m : List (List UInt8)}
      (h : Interleaving (writes (pending B (report "Parent" parent)))
        (chunks B (pending B (report "Parent" parent)) (report "Child" child)) m) :
      Outcomes B parent child errno ((puts B [] (report "Parent" parent)).1 ++ m, [0, 0])

/-- **What is written**, and with which statuses the processes exit. -/
theorem mem_outcomes {o : Outcome UInt8} :
    o ∈ outcomes B (main parent child errno) ↔ Outcomes B parent child errno o := by
  have houts : outs B (main parent child errno) [] [] =
      (together [(writes (pending B (report "Parent" parent)), [0])]
          [(chunks B (pending B (report "Parent" parent)) (report "Child" child), [0])]
        ++ [(writes (pending B (report "Parent" parent)), [errno])]).map
          fun o => ((puts B [] (report "Parent" parent)).1 ++ o.1, o.2) := by
    simp only [main, outs, outs_print, puts_eq_pending, List.flatten_nil]
    rfl
  rw [outcomes_eq, Set.mem_ofPred_eq, houts, List.mem_map]
  constructor
  · rintro ⟨o, ho, rfl⟩
    rcases List.mem_append.1 ho with ho | ho
    · obtain ⟨x, hx, y, hy, hm, hstatus⟩ := mem_together.1 ho
      rw [List.mem_singleton.1 hx, List.mem_singleton.1 hy] at hm hstatus
      obtain ⟨m, ss⟩ := o
      obtain rfl : ss = [0, 0] := hstatus
      exact .forked hm
    · obtain rfl := List.mem_singleton.1 ho
      rw [← puts_eq_pending]
      exact .forkFailed
  · rintro (_ | h)
    · refine ⟨_, List.mem_append_right _ (List.mem_singleton_self _), ?_⟩
      rw [← puts_eq_pending]
      rfl
    · exact ⟨(_, [0, 0]), List.mem_append_left _ (mem_together.2 ⟨_, List.mem_singleton_self _, _,
        List.mem_singleton_self _, h, rfl⟩), rfl⟩

/-- The text of the two processes: what is in the buffer at the fork comes out twice, by itself and
before the lines of the child. -/
theorem text_of_forked {o : Outcome UInt8} (ho : o ∈ outcomes B (main parent child errno))
    (hstatus : o.2 = [0, 0]) :
    ∃ z, Interleaving (pending B (report "Parent" parent))
        (pending B (report "Parent" parent) ++ report "Child" child) z ∧
      o.1.flatten = (puts B [] (report "Parent" parent)).1.flatten ++ z := by
  cases mem_outcomes.1 ho with
  | forkFailed => cases hstatus
  | @forked m hm =>
      have hflat := hm.flatten
      rw [flatten_writes, flatten_chunks] at hflat
      exact ⟨m.flatten, hflat, List.flatten_append⟩

/-- **When nothing comes out twice**: exactly when the buffer is empty at the fork.  Every run in
which the fork succeeds writes what is in it once for the parent, and once for the child before its
own lines. -/
theorem printed_once_iff (B : Buffering UInt8) (parent child : Ids) (errno : ℤ) :
    ((∀ o ∈ outcomes B (main parent child errno), o.2 = [0, 0] →
        o.1.flatten = report "Parent" parent ++ report "Child" child) ↔
      pending B (report "Parent" parent) = []) ∧
    ∃ before, report "Parent" parent = before ++ pending B (report "Parent" parent) ∧
      ∀ o ∈ outcomes B (main parent child errno), o.2 = [0, 0] →
        ∃ z, Interleaving (pending B (report "Parent" parent))
            (pending B (report "Parent" parent) ++ report "Child" child) z ∧
          o.1.flatten = before ++ z := by
  have hbefore : (puts B [] (report "Parent" parent)).1.flatten
      ++ pending B (report "Parent" parent) = report "Parent" parent := by
    rw [← puts_eq_pending, puts_append, List.nil_append]
  refine ⟨⟨fun h => ?_, fun hempty o ho hstatus => ?_⟩, _, hbefore.symm,
    fun o => text_of_forked⟩
  · -- the parent exits first
    have hfirst := (interleaving_nil_left.2 (rfl : chunks B (pending B (report "Parent" parent))
      (report "Child" child) = _)).append_left (writes (pending B (report "Parent" parent)))
    rw [List.append_nil] at hfirst
    have htext := h _ (mem_outcomes.2 (.forked hfirst)) rfl
    rw [List.flatten_append, List.flatten_append, flatten_writes, flatten_chunks,
      ← List.append_assoc, hbefore, List.append_cancel_left_eq] at htext
    have hlength := congrArg List.length htext
    rw [List.length_append] at hlength
    exact List.eq_nil_of_length_eq_zero (by omega)
  · obtain ⟨z, hz, heq⟩ := text_of_forked ho hstatus
    rw [hempty, List.append_nil] at hbefore
    rw [hempty, List.nil_append] at hz
    rw [heq, hbefore, interleaving_nil_left.1 hz]

/-- On a terminal the last newline empties the buffer; in a file everything that fits stays in it,
so that all lines of the parent come out twice. -/
theorem pending_report (who : String) (ids : Ids) :
    (B.flushes 10 = true → pending B (report who ids) = []) ∧
      ((∀ b, B.flushes b = false) → (report who ids).length ≤ B.capacity →
        pending B (report who ids) = report who ids) := by
  refine ⟨fun hflush => ?_, fun hblock hroom => pending_of_room hblock hroom⟩
  have hnewline : ascii "\n" = [10] := rfl
  have hlast : ∃ front, report who ids = front ++ [10] := by
    simp only [report, List.flatMap_cons, List.flatMap_nil, hnewline, List.append_nil,
      ← List.append_assoc]
    exact ⟨_, rfl⟩
  obtain ⟨front, hfront⟩ := hlast
  rw [hfront, pending_of_flushes front hflush]

end InheritIds
