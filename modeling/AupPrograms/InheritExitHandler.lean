/-
**An exit handler that a child inherits** (`assignment_5/inherit_exit_handler.c`).

The parent registers `exit_handler` and forks.  Both processes print that they are done and exit,
the child with status 1, and nobody waits.  The handler runs in each of them.  How the two texts
come out depends on the buffering of the standard output, since the processes run side by side.

Main definitions:

* `InheritExitHandler.main` — the program;
* `InheritExitHandler.lineOrders` — the orders in which the lines of the two can come out.

Main results:

* `InheritExitHandler.main_outcomes` — **what is written, and with which statuses**, under any
  buffering;
* `InheritExitHandler.together_iff` — **when the text of a process stays together**: exactly when
  all of it stays in the buffer until the process exits;
* `InheritExitHandler.line_outcomes` — **on a terminal** the lines come out in one of four orders.
-/

import AupPrograms.CText
import AupPrograms.ForkExit

set_option relaxedAutoImplicit false
set_option autoImplicit false

namespace InheritExitHandler

open CText (ascii)
open ForkExit
open ForkJoin (Interleaving shuffles mem_shuffles Held puts puts_of_held puts_text_append
  puts_flatMap)
open Stdio (Buffering put_of_flushes)

/-! ### The program -/

/-- What `exit_handler` prints. -/
def exit_handler : List UInt8 := ascii "In the exit_handler\n"

def parentDone : List UInt8 := ascii "Parent is done\n"

def childDone : List UInt8 := ascii "Child is done\n"

/-- **`main`**, with the values of `errno` after a failed `atexit` and a failed `fork`. -/
def main (atexitErrno forkErrno : ℤ) : Prog UInt8 :=
  .atexit exit_handler
    (.fork (.print childDone (.exit 1)) (.print parentDone (.exit 0)) (.exit forkErrno))
    (.exit atexitErrno)

variable {B : Buffering UInt8} {atexitErrno forkErrno : ℤ}

/-! ### What is written -/

/-- The text of the parent. -/
def parentText : List UInt8 := parentDone ++ exit_handler

/-- The text of the child. -/
def childText : List UInt8 := childDone ++ exit_handler

/-- The outcomes of the program. -/
inductive Outcomes (B : Buffering UInt8) (atexitErrno forkErrno : ℤ) : Outcome UInt8 → Prop
  | atexitFailed : Outcomes B atexitErrno forkErrno ([], [atexitErrno])
  | forkFailed : Outcomes B atexitErrno forkErrno (chunks B [] exit_handler, [forkErrno])
  | forked {m : List (List UInt8)}
      (h : Interleaving (chunks B [] parentText) (chunks B [] childText) m) :
      Outcomes B atexitErrno forkErrno (m, [0, 1])

theorem mem_outcomes {o : Outcome UInt8} :
    o ∈ outcomes B (main atexitErrno forkErrno) ↔ Outcomes B atexitErrno forkErrno o := by
  have houts : outs B (main atexitErrno forkErrno) [] [] =
      (together [(chunks B [] parentText, [0])] [(chunks B [] childText, [1])]
        ++ [(chunks B [] exit_handler, [forkErrno])]) ++ [([], [atexitErrno])] := by
    simp only [main, outs, outs_print_exit, List.flatten_cons, List.flatten_nil, List.append_nil,
      parentText, childText]
    rfl
  rw [outcomes_eq, Set.mem_ofPred_eq, houts, List.mem_append, List.mem_append, List.mem_singleton,
    List.mem_singleton]
  constructor
  · rintro ((h | rfl) | rfl)
    · obtain ⟨x, hx, y, hy, hm, hstatus⟩ := mem_together.1 h
      rw [List.mem_singleton.1 hx, List.mem_singleton.1 hy] at hm hstatus
      obtain ⟨m, ss⟩ := o
      obtain rfl : ss = [0, 1] := hstatus
      exact .forked hm
    · exact .forkFailed
    · exact .atexitFailed
  · rintro (_ | _ | h)
    · exact Or.inr rfl
    · exact Or.inl (Or.inr rfl)
    · exact Or.inl (Or.inl (mem_together.2 ⟨_, List.mem_singleton_self _, _,
        List.mem_singleton_self _, h, rfl⟩))

/-- **What is written, and with which statuses**: every run is bounded and can be continued until
all processes have exited, and then either `atexit` or `fork` has failed, or both processes have
printed their line and run the handler after it, at the same time. -/
theorem main_outcomes (B : Buffering UInt8) (atexitErrno forkErrno : ℤ) :
    (∀ as s, (system B (main atexitErrno forkErrno)).Exec as s → as.length ≤ 75 ∧
      ∃ bs s', (system B (main atexitErrno forkErrno)).Run s bs s' ∧ s'.Finished) ∧
    ∀ o, o ∈ outcomes B (main atexitErrno forkErrno) ↔ Outcomes B atexitErrno forkErrno o := by
  refine ⟨fun as s h => ⟨?_, exists_run_finished s⟩, fun _ => mem_outcomes⟩
  have hle := length_le h
  have hsize : (main atexitErrno forkErrno).size [] = 75 := rfl
  omega

/-! ### When the texts stay together -/

/-- **When the text of a process stays together**: exactly when all of it stays in the buffer until
the process exits. -/
theorem together_iff (B : Buffering UInt8) (atexitErrno forkErrno : ℤ) :
    (∀ o ∈ outcomes B (main atexitErrno forkErrno), o.2 = [0, 1] →
      o.1.flatten = parentText ++ childText ∨ o.1.flatten = childText ++ parentText) ↔
    Held B parentText ∧ Held B childText := by
  have hparent : parentText.dropLast ++ [10] = parentText := by decide
  have hchild : childText.dropLast ++ [10] = childText := by decide
  -- the last newline is not the only one
  have hlast : ∀ text : List UInt8, 10 ∈ text → (∀ c ∈ text, B.flushes c = false) →
      B.flushes 10 = false := fun text hmem hall => hall 10 hmem
  constructor
  · intro h
    constructor
    · by_contra hnot
      rw [← hparent] at hnot
      obtain ⟨m, hm, hne, hne'⟩ :=
        exists_mixed childText 67 hnot (hlast _ (by decide)) rfl (by decide)
      rw [hparent] at hm hne hne'
      rcases h (m, [0, 1]) (mem_outcomes.2 (.forked hm)) rfl with heq | heq
      · exact hne heq
      · exact hne' heq
    · by_contra hnot
      rw [← hchild] at hnot
      obtain ⟨m, hm, hne, hne'⟩ :=
        exists_mixed parentText 80 hnot (hlast _ (by decide)) rfl (by decide)
      rw [hchild] at hm hne hne'
      rcases h (m, [0, 1]) (mem_outcomes.2 (.forked hm.symm)) rfl with heq | heq
      · exact hne' heq
      · exact hne heq
  · rintro ⟨hp, hc⟩ o ho hstatus
    have hpchunks := chunks_of_held (by decide) hp
    have hcchunks := chunks_of_held (by decide) hc
    cases mem_outcomes.1 ho with
    | atexitFailed => cases hstatus
    | forkFailed => cases hstatus
    | forked hm =>
        rw [hpchunks, hcchunks, ← mem_shuffles] at hm
        -- two writes, in either order
        rcases List.mem_cons.1 hm with rfl | hm
        · exact Or.inl rfl
        · rw [List.mem_singleton.1 hm]
          exact Or.inr rfl

/-! ### On a terminal -/

/-- The lines that can be printed. -/
inductive Line
  | parent
  | child
  | handler
  deriving DecidableEq

def Line.bytes : Line → List UInt8
  | .parent => parentDone
  | .child => childDone
  | .handler => exit_handler

/-- The orders of the lines when both processes have run. -/
def lineOrders : List (List Line) :=
  [[.parent, .handler, .child, .handler], [.parent, .child, .handler, .handler],
    [.child, .parent, .handler, .handler], [.child, .handler, .parent, .handler]]

/-- A line is written with its newline. -/
theorem puts_line (hline : ∀ b, B.flushes b = true ↔ b = 10) (hcapacity : 20 < B.capacity)
    (l : Line) : puts B [] l.bytes = ([l.bytes], []) := by
  have hshape : ∀ l : Line, l.bytes.dropLast ++ [10] = l.bytes ∧ 10 ∉ l.bytes.dropLast ∧
      l.bytes.dropLast.length < 20 := by
    intro l
    cases l <;> decide
  obtain ⟨heq, hnot, hlen⟩ := hshape l
  have hheld : Held B l.bytes.dropLast := by
    refine ⟨fun b hb => ?_, by omega⟩
    refine Bool.eq_false_iff.2 fun hflush => hnot ?_
    rwa [← (hline b).1 hflush]
  have hput : B.put l.bytes.dropLast 10 = (l.bytes, []) := by
    rw [put_of_flushes ((hline 10).2 rfl), heq]
  obtain ⟨x, xs, hcons⟩ : ∃ x xs, l.bytes = x :: xs := by
    cases l <;> exact ⟨_, _, rfl⟩
  have hputs : puts B [] (l.bytes.dropLast ++ [10]) = ([l.bytes], []) := by
    rw [puts_text_append, puts_of_held [] hheld]
    simp only [List.nil_append, puts, hput]
    rw [hcons]
    rfl
  rwa [heq] at hputs

theorem chunks_lines (hline : ∀ b, B.flushes b = true ↔ b = 10) (hcapacity : 20 < B.capacity)
    (ls : List Line) : chunks B [] (ls.flatMap Line.bytes) = ls.map Line.bytes := by
  rw [chunks, puts_flatMap (puts_line hline hcapacity)]
  exact List.append_nil _

/-- **On a terminal** the lines of the two processes come out in one of four orders, and each of
these is possible. -/
theorem line_outcomes (B : Buffering UInt8) (hline : ∀ b, B.flushes b = true ↔ b = 10)
    (hcapacity : 20 < B.capacity) (atexitErrno forkErrno : ℤ) (o : Outcome UInt8) :
    o ∈ outcomes B (main atexitErrno forkErrno) ↔
      o = ([], [atexitErrno]) ∨ o = ([exit_handler], [forkErrno]) ∨
        ∃ ls ∈ lineOrders, o = (ls.map Line.bytes, [0, 1]) := by
  have hhandler : chunks B [] exit_handler = [exit_handler] := by
    simpa [Line.bytes] using chunks_lines hline hcapacity [.handler]
  have hparent : chunks B [] parentText = [Line.parent, .handler].map Line.bytes :=
    chunks_lines hline hcapacity [.parent, .handler]
  have hchild : chunks B [] childText = [Line.child, .handler].map Line.bytes :=
    chunks_lines hline hcapacity [.child, .handler]
  have horders : ∀ ls, ls ∈ shuffles [Line.parent, .handler] [.child, .handler] ↔
      ls ∈ lineOrders := by
    simp [shuffles, ForkJoin.insertions, lineOrders]
  rw [mem_outcomes]
  constructor
  · rintro (_ | _ | h)
    · exact Or.inl rfl
    · rw [hhandler]
      exact Or.inr (Or.inl rfl)
    · rw [hparent, hchild, ← mem_shuffles, ForkJoin.shuffles_map] at h
      obtain ⟨ls, hls, rfl⟩ := List.mem_map.1 h
      exact Or.inr (Or.inr ⟨ls, (horders ls).1 hls, rfl⟩)
  · rintro (rfl | rfl | ⟨ls, hls, rfl⟩)
    · exact .atexitFailed
    · rw [← hhandler]
      exact .forkFailed
    · refine .forked ?_
      rw [hparent, hchild, ← mem_shuffles, ForkJoin.shuffles_map]
      exact List.mem_map_of_mem ((horders ls).2 hls)

/-- Line buffering with a buffer of 1024 bytes. -/
theorem line_outcomes_terminal :
    (([Line.child, .parent, .handler, .handler].map Line.bytes, [0, 1]) : Outcome UInt8)
      ∈ outcomes ⟨1024, by decide, fun b => b == 10⟩ (main 12 11) :=
  (line_outcomes ⟨1024, by decide, fun b => b == 10⟩ (fun _ => beq_iff_eq) (by decide) 12 11 _).2
    (Or.inr (Or.inr ⟨_, by decide, rfl⟩))

end InheritExitHandler
