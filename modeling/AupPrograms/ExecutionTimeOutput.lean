/-
**The report of `execution_time`, and how standard output is buffered**
(`assignment_6/execution_time.c`).

The program prints its report with `printf` and forks in between.  Each child calls `exit`, which
writes out what the child has in its copy of the buffer.  On a terminal standard output is line
buffered, every line of the report ends in a newline, and nothing is in the buffer at a fork.  With
a block buffer there is always something in it, and the children write that once more.

What is printed for an average, a floating point number, is any text without a newline.

Main definitions:

* `ExecutionTime.text` — a line of the report;
* `ExecutionTime.report` — all that the program prints;
* `ExecutionTime.ops` — the program as a process that prints and forks;
* `ExecutionTime.PrintedOnce` — each line appears once in the combined output, and no other does.

Main results:

* `ExecutionTime.nodup_printed` — no line is printed twice by the parent;
* `ExecutionTime.flushed_iff` — when nothing is in the buffer at any fork;
* `ExecutionTime.printedOnce_iff` — **when the report is printed once.**
-/

import AupPrograms.CText
import AupPrograms.ExecutionTime
import AupPrograms.Stdio

set_option relaxedAutoImplicit false
set_option autoImplicit false

namespace ExecutionTime

open CText (ascii decimal allLines)
open Stdio (Op Buffering)

/-! ### The texts of the lines -/

/-- The texts that `%f` gives for the averages. -/
abbrev Averages := List ℤ → {bs : List UInt8 // 10 ∉ bs}

variable (avg : Averages)

/-- The text of a line, without its newline. -/
def text : Line → List UInt8
  | .title => ascii "Timings results are in microseconds"
  | .getpid k us => ascii "getpid (" ++ decimal k ++ ascii ") : " ++ decimal us
  | .fork k us => ascii "fork (" ++ decimal k ++ ascii ") : " ++ decimal us
  | .getpidAvg getpid_t => ascii "getpid avg : " ++ (avg getpid_t).1
  | .forkAvg fork_t => ascii "fork avg : " ++ (avg fork_t).1

/-- **All that the parent prints.** -/
def report (acts : List Act) : List UInt8 := (printed acts).flatMap fun l => text avg l ++ [10]

/-- What an action does with standard output; a child exits at once. -/
def actOps : Act → List (Op UInt8)
  | .printf l => (text avg l ++ [10]).map .putc
  | .call (.fork true) => [.fork]
  | _ => []

/-- **The program as a process that prints and forks.** -/
def ops (acts : List Act) : List (Op UInt8) := acts.flatMap (actOps avg)

/-- How a stream is buffered. -/
inductive Mode
  | line
  | block
  deriving DecidableEq

/-- Standard output. -/
def stdout (mode : Mode) (capacity : {c : ℕ // 0 < c}) : Buffering UInt8 where
  capacity := capacity.1
  capacity_pos := capacity.2
  flushes b := decide (mode = .line ∧ b = 10)

/-- **The report is printed once**: each line that the parent prints appears once in the combined
output, and no other line does. -/
def PrintedOnce (acts : List Act) (out : List UInt8) : Prop :=
  (∀ l ∈ printed acts, (allLines out).count (text avg l) = 1) ∧
    ∀ bs ∈ allLines out, ∃ l ∈ printed acts, bs = text avg l

variable {avg}

/-! ### Different lines have different texts -/

theorem not_mem_decimal {b : UInt8} (h : b = 10 ∨ b = 41) (x : ℤ) : b ∉ decimal x := by
  intro hb
  rcases h with rfl | rfl
  · rcases CText.mem_decimal hb with heq | ⟨hlo, -⟩
    · cases heq
    · exact absurd hlo (by decide)
  · rcases CText.mem_decimal hb with heq | ⟨hlo, -⟩
    · cases heq
    · exact absurd hlo (by decide)

/-- No line has a newline inside. -/
theorem newline_not_mem_text (avg : Averages) (l : Line) : 10 ∉ text avg l := by
  have hdec : ∀ x : ℤ, 10 ∉ decimal x := not_mem_decimal (.inl rfl)
  cases l with
  | title =>
      have htitle : 10 ∉ ascii "Timings results are in microseconds" := by decide
      exact htitle
  | getpid k us =>
      simp only [text, List.mem_append, not_or]
      exact ⟨⟨⟨by decide, hdec k⟩, by decide⟩, hdec us⟩
  | fork k us =>
      simp only [text, List.mem_append, not_or]
      exact ⟨⟨⟨by decide, hdec k⟩, by decide⟩, hdec us⟩
  | getpidAvg getpid_t =>
      simp only [text, List.mem_append, not_or]
      exact ⟨by decide, (avg getpid_t).2⟩
  | forkAvg fork_t =>
      simp only [text, List.mem_append, not_or]
      exact ⟨by decide, (avg fork_t).2⟩

/-- What a line is about. -/
def Line.key : Line → ℕ × ℕ
  | .title => (0, 0)
  | .getpid k _ => (1, k)
  | .fork k _ => (2, k)
  | .getpidAvg _ => (3, 0)
  | .forkAvg _ => (4, 0)

theorem decimal_of_parenthesis {k k' : ℕ} {xs ys : List UInt8}
    (h : decimal k ++ (41 :: xs) = decimal k' ++ (41 :: ys)) : k = k' := by
  refine CText.decimal_natCast_inj ?_
  have hbefore : ∀ (n : ℕ) (zs : List UInt8),
      (decimal n ++ (41 :: zs)).takeWhile (· ≠ 41) = decimal n := by
    intro n zs
    rw [List.takeWhile_append_of_pos]
    · exact List.append_nil _
    · intro b hb
      refine decide_eq_true fun heq => ?_
      exact not_mem_decimal (.inr rfl) n (heq ▸ hb)
  rw [← hbefore k xs, h, hbefore k' ys]

/-- **A line's text determines what the line is about.** -/
theorem key_of_text {l l' : Line} (h : text avg l = text avg l') : l.key = l'.key := by
  cases l with
  | title =>
      cases l' with
      | title => rfl
      | _ => simp [text, ascii] at h
  | getpid k us =>
      cases l' with
      | getpid k' us' =>
          simp only [text, List.append_assoc] at h
          exact congrArg (Prod.mk 1) (decimal_of_parenthesis (List.append_cancel_left h))
      | _ => simp [text, ascii] at h
  | fork k us =>
      cases l' with
      | fork k' us' =>
          simp only [text, List.append_assoc] at h
          exact congrArg (Prod.mk 2) (decimal_of_parenthesis (List.append_cancel_left h))
      | _ => simp [text, ascii] at h
  | getpidAvg getpid_t =>
      cases l' with
      | getpidAvg getpid_t' => rfl
      | _ => simp [text, ascii] at h
  | forkAvg fork_t =>
      cases l' with
      | forkAvg fork_t' => rfl
      | _ => simp [text, ascii] at h

/-! ### No line is printed twice -/

/-- The line belongs to the iterations from number `i` on, or comes after them. -/
def Line.After (i : ℕ) : Line → Prop
  | .title => False
  | .getpid k _ => i < k
  | .fork k _ => i < k
  | _ => True

theorem Line.After.mono {i j : ℕ} {l : Line} (h : l.After j) (hle : i ≤ j) : l.After i := by
  cases l with
  | title => exact h
  | getpid k us => exact lt_of_le_of_lt hle h
  | fork k us => exact lt_of_le_of_lt hle h
  | _ => trivial

theorem Line.After.key_ne {i : ℕ} {l : Line} (h : l.After i) (us : ℤ) :
    (Line.getpid i us).key ≠ l.key ∧ (Line.fork i us).key ≠ l.key := by
  cases l with
  | title => cases h
  | getpid k us' =>
      refine ⟨fun heq => ?_, fun heq => ?_⟩
      · exact absurd (Prod.mk.inj heq).2 (Nat.ne_of_lt h)
      · cases (Prod.mk.inj heq).1
  | fork k us' =>
      refine ⟨fun heq => ?_, fun heq => ?_⟩
      · cases (Prod.mk.inj heq).1
      · exact absurd (Prod.mk.inj heq).2 (Nat.ne_of_lt h)
  | getpidAvg getpid_t =>
      refine ⟨fun heq => ?_, fun heq => ?_⟩
      · cases (Prod.mk.inj heq).1
      · cases (Prod.mk.inj heq).1
  | forkAvg fork_t =>
      refine ⟨fun heq => ?_, fun heq => ?_⟩
      · cases (Prod.mk.inj heq).1
      · cases (Prod.mk.inj heq).1

/-- **No line of the loop is printed twice.** -/
theorem pairwise_printed_loop (forks : ℕ → Bool) (n i : ℕ) (tvs : List Timeval)
    (getpid_t fork_t : List ℤ) :
    (∀ l ∈ printed (loop forks n i tvs getpid_t fork_t), l.After i) ∧
      (printed (loop forks n i tvs getpid_t fork_t)).Pairwise fun l l' => l.key ≠ l'.key := by
  induction n generalizing i tvs getpid_t fork_t with
  | zero =>
      have heq : printed (loop forks 0 i tvs getpid_t fork_t) =
          [.getpidAvg getpid_t, .forkAvg fork_t] := rfl
      rw [heq, List.pairwise_pair]
      refine ⟨?_, fun h => by cases h⟩
      intro l hl
      rcases List.mem_pair.1 hl with rfl | rfl
      · trivial
      · trivial
  | succ n ih =>
      obtain ⟨acts, heq, hs, -⟩ | ⟨tv₀, tv₁, acts, heq, hs, -⟩ |
        ⟨tv₀, tv₁, tv₂, tv₃, tvs, rfl, hfork⟩ := loop_cases forks n i tvs getpid_t fork_t
      · rw [heq, hs]
        refine ⟨fun l hl => ?_, List.Pairwise.nil⟩
        cases hl
      · rw [heq, printed_append, hs, List.append_nil]
        refine ⟨fun l hl => ?_, List.pairwise_singleton _ _⟩
        obtain rfl := List.mem_singleton.1 hl
        exact Nat.lt_succ_self i
      · obtain ⟨hafter, hpair⟩ := ih (i + 1) tvs (getpid_t ++ [elapsed tv₀ tv₁])
          (fork_t ++ [elapsed tv₂ tv₃])
        rw [loop_four hfork, printed_append, printed_append]
        constructor
        · intro l hl
          rcases List.mem_cons.1 hl with rfl | hl
          · exact Nat.lt_succ_self i
          rcases List.mem_cons.1 hl with rfl | hl
          · exact Nat.lt_succ_self i
          · exact (hafter l hl).mono (Nat.le_succ i)
        · refine .cons ?_ (.cons ?_ hpair)
          · intro l hl
            rcases List.mem_cons.1 hl with rfl | hl
            · exact fun h => by cases (Prod.mk.inj h).1
            · exact ((hafter l hl).key_ne _).1
          · intro l hl
            exact ((hafter l hl).key_ne _).2

/-- **No line is printed twice by the parent.** -/
theorem nodup_printed (avg : Averages) (forks : ℕ → Bool) (n : ℕ) (tvs : List Timeval) :
    ((printed (main forks n tvs)).map (text avg)).Nodup := by
  obtain ⟨hafter, hpair⟩ := pairwise_printed_loop forks n 0 tvs [] []
  have hmain : (printed (main forks n tvs)).Pairwise fun l l' => l.key ≠ l'.key := by
    refine .cons ?_ hpair
    intro l hl heq
    have h := hafter l hl
    cases l with
    | title => exact h
    | _ => cases (Prod.mk.inj heq).1
  exact List.pairwise_map.2 (hmain.imp fun hne heq => hne (key_of_text heq))

/-! ### What is in the buffer at a fork -/

theorem text_putc (bs : List UInt8) : Stdio.text (bs.map Op.putc) = bs := by
  induction bs with
  | nil => rfl
  | cons b bs ih => exact congrArg (b :: ·) ih

theorem stdio_text_append (xs ys : List (Op UInt8)) :
    Stdio.text (xs ++ ys) = Stdio.text xs ++ Stdio.text ys := List.filterMap_append

theorem report_cons (avg : Averages) (a : Act) (acts : List Act) :
    report avg (a :: acts) = report avg [a] ++ report avg acts := by
  have happend := printed_append [a] acts
  rw [List.singleton_append] at happend
  rw [report, happend, List.flatMap_append]
  rfl

/-- The text of the process is the report. -/
theorem text_ops (avg : Averages) (acts : List Act) :
    Stdio.text (ops avg acts) = report avg acts := by
  induction acts with
  | nil => rfl
  | cons a acts ih =>
      have hact : Stdio.text (actOps avg a) = report avg [a] := by
        cases a with
        | printf l =>
            have hreport : report avg [.printf l] = text avg l ++ [10] := List.append_nil _
            rw [hreport]
            exact text_putc _
        | call c =>
            cases c with
            | getpid => rfl
            | fork child => cases child <;> rfl
        | _ => rfl
      rw [report_cons, ← hact, ← ih]
      exact stdio_text_append _ _

theorem actOps_eq_of_fork {a : Act} {xs ys : List (Op UInt8)}
    (h : actOps avg a = xs ++ .fork :: ys) : a = .call (.fork true) ∧ xs = [] := by
  have hmem : .fork ∈ actOps avg a := h ▸ List.mem_append_right xs List.mem_cons_self
  cases a with
  | printf l =>
      obtain ⟨b, -, hb⟩ := List.mem_map.1 hmem
      cases hb
  | call c =>
      cases c with
      | getpid => cases hmem
      | fork child =>
          cases child with
          | false => cases hmem
          | true =>
              refine ⟨rfl, ?_⟩
              cases xs with
              | nil => rfl
              | cons x xs =>
                  have htail := (List.cons.inj h).2
                  simp at htail
  | _ => cases hmem

/-- A fork of the process is a fork of the program. -/
theorem split_of_ops {acts : List Act} {xs ys : List (Op UInt8)}
    (h : ops avg acts = xs ++ .fork :: ys) :
    ∃ as bs, acts = as ++ .call (.fork true) :: bs ∧ xs = ops avg as := by
  induction acts generalizing xs with
  | nil => simp [ops] at h
  | cons a acts ih =>
      have hcons : actOps avg a ++ ops avg acts = xs ++ .fork :: ys := h
      rcases List.append_eq_append_iff.1 hcons with ⟨zs, rfl, hys⟩ | ⟨zs, ha, hzs⟩
      · obtain ⟨as, bs, rfl, rfl⟩ := ih hys
        exact ⟨a :: as, bs, rfl, rfl⟩
      · cases zs with
        | nil =>
            have hfirst : ops avg acts = [] ++ .fork :: ys := hzs.symm
            obtain ⟨as, bs, rfl, has⟩ := ih hfirst
            refine ⟨a :: as, bs, rfl, ?_⟩
            calc xs = actOps avg a := by rw [ha, List.append_nil]
              _ = actOps avg a ++ ops avg as := by rw [← has, List.append_nil]
        | cons z zs =>
            obtain ⟨rfl, -⟩ := List.cons.inj hzs
            obtain ⟨rfl, rfl⟩ := actOps_eq_of_fork ha
            exact ⟨[], acts, rfl, rfl⟩

theorem ops_of_split (avg : Averages) (as bs : List Act) :
    ops avg (as ++ .call (.fork true) :: bs) = ops avg as ++ .fork :: ops avg bs := by
  rw [ops, List.flatMap_append]
  rfl

/-- What is printed ends in a newline. -/
theorem report_eq_nil_or_newline (avg : Averages) (acts : List Act) :
    report avg acts = [] ∨ ∃ bs, report avg acts = bs ++ [10] := by
  rw [report]
  rcases (printed acts).eq_nil_or_concat' with hnil | ⟨ls, l, hls⟩
  · exact .inl (by rw [hnil]; rfl)
  · right
    refine ⟨(ls.flatMap fun l => text avg l ++ [10]) ++ text avg l, ?_⟩
    rw [hls, List.flatMap_append, List.append_assoc, List.flatMap_singleton]

/-- **When nothing is in the buffer at any fork**: with a block buffer, nothing has been printed
before it. -/
theorem flushed_iff (avg : Averages) (mode : Mode) (capacity : {c : ℕ // 0 < c})
    (acts : List Act) :
    Stdio.Flushed (stdout mode capacity) (ops avg acts) ↔ mode = .line ∨
      ∀ as bs, acts = as ++ .call (.fork true) :: bs → report avg as = [] := by
  cases mode with
  | line =>
      refine iff_of_true ?_ (.inl rfl)
      intro xs ys heq
      obtain ⟨as, bs, -, rfl⟩ := split_of_ops heq
      rw [text_ops]
      rcases report_eq_nil_or_newline avg as with hnil | ⟨bs, hbs⟩
      · rw [hnil]
        rfl
      · rw [hbs]
        exact Stdio.pending_of_flushes bs rfl
  | block =>
      have hpending : ∀ as, Stdio.pending (stdout .block capacity) (Stdio.text (ops avg as)) = [] ↔
          report avg as = [] := by
        intro as
        rw [text_ops, Stdio.pending_eq_nil_iff fun _ => rfl]
      constructor
      · intro h
        right
        rintro as bs rfl
        exact (hpending as).1 (h _ _ (ops_of_split avg as bs))
      · rintro (hmode | h) xs ys heq
        · cases hmode
        · obtain ⟨as, bs, hacts, rfl⟩ := split_of_ops heq
          exact (hpending as).2 (h as bs hacts)

/-! ### The first fork -/

/-- What the program does before the first fork. -/
def beforeFork (tv₀ tv₁ tv₂ : Timeval) : List Act :=
  [.printf .title, .gettimeofday tv₀, .call .getpid, .gettimeofday tv₁,
    .printf (.getpid 1 (elapsed tv₀ tv₁)), .gettimeofday tv₂]

theorem main_first_fork {forks : ℕ → Bool} (hfork : forks 0 = true) (n : ℕ)
    (tv₀ tv₁ tv₂ : Timeval) (tvs : List Timeval) :
    ∃ bs, main forks (n + 1) (tv₀ :: tv₁ :: tv₂ :: tvs) =
      beforeFork tv₀ tv₁ tv₂ ++ .call (.fork true) :: bs := by
  cases tvs with
  | nil =>
      refine ⟨[.perror "Gettimeofday failed\n", .ret .errno], ?_⟩
      have hg := timed_two (c := .getpid) (fun h => by cases h) (.getpid 1) tv₀ tv₁ [tv₂]
      have hf : timed (.fork (forks 0)) (.fork 1) [tv₂] = ([.gettimeofday tv₂, .call (.fork true),
          .perror "Gettimeofday failed\n", .ret .errno], none) := by
        rw [hfork]
        rfl
      simp only [main, loop, Nat.zero_add, hg, hf]
      rfl
  | cons tv₃ tvs =>
      rw [main, loop_four hfork]
      exact ⟨_, rfl⟩

/-- **When a fork succeeds**: there is an iteration, and the clock and the first fork do not fail in
it. -/
theorem call_fork_mem_main_iff {forks : ℕ → Bool} {n : ℕ} {tvs : List Timeval} :
    .call (.fork true) ∈ main forks n tvs ↔ 0 < n ∧ 3 ≤ tvs.length ∧ forks 0 = true := by
  constructor
  · intro h
    by_contra hnot
    cases n with
    | zero => simp [main, loop] at h
    | succ n =>
        rcases tvs with _ | ⟨tv₀, _ | ⟨tv₁, _ | ⟨tv₂, tvs⟩⟩⟩
        · simp [main, loop, timed] at h
        · simp [main, loop, timed] at h
        · simp [main, loop, timed] at h
        · have hfork : forks 0 = false := by simpa using hnot
          simp [main, loop, timed, hfork] at h
  · rintro ⟨hn, hlen, hfork⟩
    obtain ⟨n, rfl⟩ := Nat.exists_eq_succ_of_ne_zero hn.ne'
    obtain ⟨tv₀, tv₁, tv₂, tvs, rfl⟩ : ∃ tv₀ tv₁ tv₂ tvs', tvs = tv₀ :: tv₁ :: tv₂ :: tvs' := by
      rcases tvs with _ | ⟨tv₀, _ | ⟨tv₁, _ | ⟨tv₂, tvs⟩⟩⟩
      · cases hlen
      · simp at hlen
      · simp at hlen
      · exact ⟨_, _, _, _, rfl⟩
    obtain ⟨bs, hmain⟩ := main_first_fork hfork n tv₀ tv₁ tv₂ tvs
    rw [hmain]
    exact List.mem_append_right _ List.mem_cons_self

/-! ### When the report is printed once -/

theorem report_eq_flatMap (avg : Averages) (acts : List Act) :
    report avg acts = ((printed acts).map (text avg)).flatMap fun l => l ++ [10] := by
  rw [List.flatMap_map]
  rfl

theorem not_mem_of_mem_map {ls : List Line} :
    ∀ bs ∈ ls.map (text avg), 10 ∉ bs := by
  intro bs hbs
  obtain ⟨l, -, rfl⟩ := List.mem_map.1 hbs
  exact newline_not_mem_text avg l

/-- The report itself has each line once. -/
theorem printedOnce_report (avg : Averages) (forks : ℕ → Bool) (n : ℕ) (tvs : List Timeval) :
    PrintedOnce avg (main forks n tvs) (report avg (main forks n tvs)) := by
  have hlines : allLines (report avg (main forks n tvs)) =
      (printed (main forks n tvs)).map (text avg) := by
    rw [report_eq_flatMap]
    exact CText.allLines_flatMap not_mem_of_mem_map
  rw [PrintedOnce, hlines]
  constructor
  · intro l hl
    exact List.count_eq_one_of_mem (nodup_printed avg forks n tvs) (List.mem_map_of_mem hl)
  · intro bs hbs
    obtain ⟨l, hl, rfl⟩ := List.mem_map.1 hbs
    exact ⟨l, hl, rfl⟩

/-- Where each line appears once, no more than the report is written. -/
theorem PrintedOnce.length_le {acts : List Act} {out : List UInt8} (h : PrintedOnce avg acts out)
    (hnodup : ((printed acts).map (text avg)).Nodup) : out.length ≤ (report avg acts).length := by
  obtain ⟨honce, hothers⟩ := h
  have hperm : (allLines out).Perm ((printed acts).map (text avg)) := by
    refine List.perm_iff_count.2 fun bs => ?_
    by_cases hbs : bs ∈ (printed acts).map (text avg)
    · rw [List.count_eq_one_of_mem hnodup hbs]
      obtain ⟨l, hl, rfl⟩ := List.mem_map.1 hbs
      exact honce l hl
    · rw [List.count_eq_zero_of_not_mem hbs]
      refine List.count_eq_zero_of_not_mem fun hmem => hbs ?_
      obtain ⟨l, hl, rfl⟩ := hothers bs hmem
      exact List.mem_map_of_mem hl
  calc out.length
      ≤ ((allLines out).map fun l => l.length + 1).sum := CText.length_le_sum out
    _ = (((printed acts).map (text avg)).map fun l => l.length + 1).sum :=
        (hperm.map _).sum_eq
    _ = (report avg acts).length := by
        rw [report_eq_flatMap, List.length_flatMap]
        simp only [List.length_append, List.length_singleton]

/-- The title is printed before any fork. -/
theorem report_ne_nil_of_split {forks : ℕ → Bool} {n : ℕ} {tvs : List Timeval} {as bs : List Act}
    (h : main forks n tvs = as ++ .call (.fork true) :: bs) : report avg as ≠ [] := by
  cases as with
  | nil => cases h
  | cons a as =>
      obtain ⟨rfl, -⟩ := List.cons.inj h
      rw [report_cons]
      refine List.append_ne_nil_of_left_ne_nil ?_ _
      simp [report, printed]

/-- **When the report is printed once**, whatever the order of the processes: exactly when standard
output is line buffered, or no fork succeeds. -/
theorem printedOnce_iff (avg : Averages) (mode : Mode) (capacity : {c : ℕ // 0 < c})
    (forks : ℕ → Bool) (n : ℕ) (tvs : List Timeval) :
    (∀ as s, (Stdio.system (stdout mode capacity) (ops avg (main forks n tvs))).Exec as s →
        s.Finished → PrintedOnce avg (main forks n tvs) s.out) ↔
      mode = .line ∨ ¬ (0 < n ∧ 3 ≤ tvs.length ∧ forks 0 = true) := by
  have hforks : (∀ as bs, main forks n tvs = as ++ .call (.fork true) :: bs → report avg as = []) ↔
      ¬ (0 < n ∧ 3 ≤ tvs.length ∧ forks 0 = true) := by
    rw [← call_fork_mem_main_iff]
    constructor
    · intro h hmem
      obtain ⟨as, bs, heq⟩ := List.append_of_mem hmem
      exact report_ne_nil_of_split heq (h as bs heq)
    · intro hnot as bs heq
      exact absurd (heq ▸ List.mem_append_right as List.mem_cons_self) hnot
  rw [← hforks, ← flushed_iff avg mode capacity]
  constructor
  · intro h
    by_contra hnot
    obtain ⟨as, s, hrun, hfin, -⟩ := Stdio.exists_finished (stdout mode capacity)
      (ops avg (main forks n tvs))
    have hlt := Stdio.length_lt_of_not_flushed hrun hfin hnot
    rw [text_ops] at hlt
    exact Nat.not_le.2 hlt ((h as s hrun hfin).length_le (nodup_printed avg forks n tvs))
  · intro hflushed as s hrun hfin
    rw [(Stdio.forall_out_eq_iff _ _).2 hflushed as s hrun hfin, text_ops]
    exact printedOnce_report avg forks n tvs

/-! ### A large block buffer -/

/-- **With a block buffer that has room at the first fork, the first line can appear twice.** -/
theorem exists_title_twice (avg : Averages) (capacity : {c : ℕ // 0 < c}) (forks : ℕ → Bool)
    (hfork : forks 0 = true) (n : ℕ) (tv₀ tv₁ tv₂ : Timeval) (tvs : List Timeval)
    (hroom : (report avg (beforeFork tv₀ tv₁ tv₂)).length ≤ capacity.1) :
    ∃ as s, (Stdio.system (stdout .block capacity)
        (ops avg (main forks (n + 1) (tv₀ :: tv₁ :: tv₂ :: tvs)))).Exec as s ∧ s.Finished ∧
      2 ≤ (allLines s.out).count (text avg .title) := by
  obtain ⟨bs, hmain⟩ := main_first_fork hfork n tv₀ tv₁ tv₂ tvs
  obtain ⟨as, s, hrun, hfin, hout⟩ := Stdio.exists_finished (stdout .block capacity)
    (ops avg (main forks (n + 1) (tv₀ :: tv₁ :: tv₂ :: tvs)))
  refine ⟨as, s, hrun, hfin, ?_⟩
  have hbefore : ops avg (beforeFork tv₀ tv₁ tv₂) =
      (report avg (beforeFork tv₀ tv₁ tv₂)).map .putc := by
    simp only [ops, beforeFork, actOps, report, printed, List.flatMap_cons, List.flatMap_nil,
      List.filterMap_cons, List.filterMap_nil, List.map_append, List.append_nil, List.nil_append]
  obtain ⟨copies, hleaks⟩ : ∃ copies, Stdio.leaks (stdout .block capacity) []
      (ops avg (main forks (n + 1) (tv₀ :: tv₁ :: tv₂ :: tvs))) =
        report avg (beforeFork tv₀ tv₁ tv₂) :: copies := by
    rw [hmain, ops_of_split, hbefore, Stdio.leaks_of_putc,
      Stdio.pending_of_room (fun _ => rfl) hroom]
    exact ⟨_, rfl⟩
  have hcount : ∀ acts, Line.title ∈ printed acts →
      1 ≤ ((printed acts).map (text avg)).count (text avg .title) := by
    intro acts hmem
    exact List.one_le_count_iff.2 (List.mem_map_of_mem hmem)
  have hfirst := hcount (main forks (n + 1) (tv₀ :: tv₁ :: tv₂ :: tvs)) List.mem_cons_self
  have hsecond := hcount (beforeFork tv₀ tv₁ tv₂) List.mem_cons_self
  rw [hout, text_ops, hleaks, List.flatten_cons, report_eq_flatMap, report_eq_flatMap,
    CText.allLines_flatMap_append not_mem_of_mem_map,
    CText.allLines_flatMap_append not_mem_of_mem_map, List.count_append, List.count_append]
  omega

/-- Every average is printed as zero. -/
def zeros : Averages := fun _ => ⟨ascii "0.000000", by decide⟩

/-- **A line is printed twice** if standard output has a block buffer of 4096 bytes. -/
theorem not_printed_once_block : ¬ ∀ (avg : Averages) (mode : Mode) (capacity : {c : ℕ // 0 < c})
    (forks : ℕ → Bool) (n : ℕ) (tvs : List Timeval) (as : List (Stdio.Mover × List UInt8))
    (s : Stdio.State UInt8),
    (Stdio.system (stdout mode capacity) (ops avg (main forks n tvs))).Exec as s → s.Finished →
      ∀ l ∈ printed (main forks n tvs), (allLines s.out).count (text avg l) = 1 := by
  intro h
  obtain ⟨as, s, hrun, hfin, htwice⟩ := exists_title_twice zeros ⟨4096, by decide⟩
    (fun _ => true) rfl 9 ⟨7, 7, by decide, by decide⟩ ⟨7, 7, by decide, by decide⟩
    ⟨7, 7, by decide, by decide⟩ (List.replicate 37 ⟨7, 7, by decide, by decide⟩) (by decide)
  have honce := h zeros .block ⟨4096, by decide⟩ (fun _ => true) 10 _ as s hrun hfin .title
    List.mem_cons_self
  omega

end ExecutionTime
