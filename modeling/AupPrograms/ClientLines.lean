/-
**Which lines the client of the FIFO sends** (`assignment_3/client.c`).

The loop of the client reads a line with `gets`, tests the end-of-file flag of standard input, and
passes the line to `write`.  `gets` sets the flag when it returns nothing, but also when it returns
a last line without a newline; such a line is read and not sent.

Any call of the loop may fail, which ends the program, and a line of 300 bytes or more overruns the
array.  The results are about the runs in which neither happens.

Main definitions:

* `ClientLines.loopBody` — the loop of the client;
* `ClientLines.Sends` — the strings that a run passes to `write`.

Main results:

* `ClientLines.sends_iff` — **what is sent**: the lines that end in a newline;
* `ClientLines.sends_every_line_iff` — **when every line is sent.**
-/

import AupPrograms.FifoSession
import AupPrograms.Loop

set_option relaxedAutoImplicit false
set_option autoImplicit false

namespace ClientLines

open CText

/-! ### The loop -/

/-- What is left of standard input, the number of calls made, and the strings passed to `write`. -/
structure St where
  stdin : List UInt8
  calls : ℕ
  passed : List (List UInt8)

/-- Why the loop was left. -/
inductive Stop
  | eof
  /-- A call has failed. -/
  | failed
  /-- The line does not fit into the array. -/
  | overrun
  deriving DecidableEq

/-- The body of `while (gets(s), !feof(stdin))`, whose calls are `fstat`, `write` and `fstat`. -/
def loopBody (ok : ℕ → Bool) (s : St) : St ⊕ (Stop × St) :=
  let got := gets s.stdin
  if 300 ≤ got.line.length then .inr (.overrun, { s with stdin := got.rest })
  else if got.eof then .inr (.eof, { s with stdin := got.rest })
  else if ok s.calls = false then .inr (.failed, ⟨got.rest, s.calls + 1, s.passed⟩)
  else
    let passed := s.passed ++ [cstr got.line]
    if ok (s.calls + 1) = false then .inr (.failed, ⟨got.rest, s.calls + 2, passed⟩)
    else if ok (s.calls + 2) = false then .inr (.failed, ⟨got.rest, s.calls + 3, passed⟩)
    else .inl ⟨got.rest, s.calls + 3, passed⟩

/-- **The strings that the loop passes to `write`** on an input, up to the end of it, when every
call succeeds. -/
def Sends (stdin : List UInt8) (ls : List (List UInt8)) : Prop :=
  ∃ s, Loop.Returns (loopBody fun _ => true) ⟨stdin, 0, []⟩ (.eof, s) ∧ s.passed = ls

/-! ### What is sent -/

section

variable {s : St}

/-- At the end of the input the loop is left, and what has been read is not sent. -/
theorem loopBody_eof (hshort : (gets s.stdin).line.length < 300)
    (heof : (gets s.stdin).eof = true) :
    loopBody (fun _ => true) s = .inr (.eof, { s with stdin := (gets s.stdin).rest }) := by
  simp only [loopBody, if_neg (Nat.not_le.2 hshort), if_pos heof]

/-- A line that ends in a newline is sent. -/
theorem loopBody_line (hshort : (gets s.stdin).line.length < 300)
    (heof : (gets s.stdin).eof = false) :
    loopBody (fun _ => true) s
      = .inl ⟨(gets s.stdin).rest, s.calls + 3, s.passed ++ [cstr (gets s.stdin).line]⟩ := by
  simp only [loopBody, if_neg (Nat.not_le.2 hshort), heof, Bool.false_eq_true, if_false,
    Bool.true_eq_false]

end

/-- **The loop** sends the lines that end in a newline. -/
theorem loop_returns (ls : List (List UInt8)) (s : St) (hl : lines s.stdin = ls)
    (hshort : ∀ l ∈ allLines s.stdin, l.length < 300) :
    ∃ s', Loop.Returns (loopBody fun _ => true) s (.eof, s') ∧
      s'.passed = s.passed ++ ls.map cstr := by
  induction ls generalizing s with
  | nil =>
      have heof := (lines_eq_nil_iff s.stdin).1 hl
      obtain ⟨hmem, hline, -⟩ := gets_of_eof heof
      have hlast : (gets s.stdin).line.length < 300 := by
        rw [hline]
        rcases eq_or_ne s.stdin [] with hnil | hne
        · rw [hnil]
          exact Nat.succ_pos 299
        · refine hshort _ ?_
          rw [allLines, hl, unterminated_of_not_mem hmem, if_neg hne]
          exact List.mem_singleton_self _
      refine ⟨_, (Loop.returns_of_leaves (loopBody_eof hlast heof)).2 rfl, ?_⟩
      rw [List.map_nil, List.append_nil]
  | cons l ls ih =>
      obtain ⟨heof, hline, hrest⟩ := gets_of_lines hl
      have hall := allLines_of_cons hl
      have hfirst : (gets s.stdin).line.length < 300 := by
        rw [hline]
        exact hshort l (hall ▸ List.mem_cons_self)
      obtain ⟨s', hs', hpassed⟩ := ih
        ⟨(gets s.stdin).rest, s.calls + 3, s.passed ++ [cstr (gets s.stdin).line]⟩ hrest
        fun l' hl' => hshort l' (hall ▸ List.mem_cons_of_mem l hl')
      refine ⟨s', (Loop.returns_of_goesOn (loopBody_line hfirst heof)).2 hs', ?_⟩
      rw [hpassed, hline, List.map_cons, List.append_assoc, List.singleton_append]

/-- **What is sent**: the lines that end in a newline, as C strings. -/
theorem sends_iff {stdin : List UInt8} (hshort : ∀ l ∈ allLines stdin, l.length < 300)
    {ls : List (List UInt8)} : Sends stdin ls ↔ ls = (lines stdin).map cstr := by
  obtain ⟨s, hs, hpassed⟩ := loop_returns (lines stdin) ⟨stdin, 0, []⟩ rfl hshort
  constructor
  · rintro ⟨s', hs', rfl⟩
    obtain rfl := (Prod.mk.inj (hs'.unique hs)).2
    exact hpassed
  · rintro rfl
    exact ⟨s, hs, hpassed⟩

/-- They are what the client writes to the FIFO. -/
theorem Sends.flatten {stdin : List UInt8} (hshort : ∀ l ∈ allLines stdin, l.length < 300)
    {ls : List (List UInt8)} (h : Sends stdin ls) : ls.flatten = FifoSession.text stdin := by
  rw [(sends_iff hshort).1 h, FifoSession.text, List.flatMap_def]

/-- **Every line is sent exactly when the input is empty or ends in a newline.** -/
theorem sends_every_line_iff {stdin : List UInt8} (hnul : ∀ b ∈ stdin, b ≠ 0)
    (hshort : ∀ l ∈ allLines stdin, l.length < 300) :
    Sends stdin (allLines stdin) ↔ stdin = [] ∨ stdin.getLast? = some 10 := by
  have hcstr : (lines stdin).map cstr = lines stdin := by
    have hline : ∀ l ∈ lines stdin, cstr l = id l := fun l hl =>
      cstr_eq_self fun b hb => hnul b (mem_of_mem_lines hl hb)
    rw [List.map_congr_left hline, List.map_id]
  have hlast : unterminated stdin = [] ↔ stdin = [] ∨ stdin.getLast? = some 10 := by
    rcases List.eq_nil_or_concat' stdin with rfl | ⟨bs, b, rfl⟩
    · simp [unterminated]
    · rw [unterminated, List.rtakeWhile_concat]
      split_ifs with hb
      · simpa using hb
      · simpa using hb
  rw [sends_iff hshort, hcstr, ← hlast, allLines, List.append_right_eq_self]
  split_ifs with hnil
  · simp [hnil]
  · simp [hnil]

/-- The line `hi` is sent. -/
theorem sends_hi : Sends [104, 105, 10] [[104, 105]] :=
  (sends_every_line_iff (by simp) (by decide)).2 (.inr rfl)

/-- Without a newline it is not. -/
theorem not_sends_hi : allLines [104, 105] = [[104, 105]] ∧ ¬ Sends [104, 105] [[104, 105]] := by
  refine ⟨by decide, fun h => ?_⟩
  have hsent := (sends_iff (by decide)).1 h
  exact absurd hsent (by decide)

end ClientLines
