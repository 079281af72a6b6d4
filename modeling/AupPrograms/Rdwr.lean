/-
**Reading to the end of a file and writing there** (`assignment_1/rdwr.c`).

The program reads ten bytes of a file, then one byte after the other until a read returns none, and
writes "hello" at the offset it has come to.  Each byte is read into the lowest byte of an `int`
that was never initialised, and the loop also stops if that `int` is equal to `EOF`.  Whether it can
be depends on the three other bytes, which stay as they were.

Main definitions:

* `Rdwr.main` — the program, with fuel for its loop;
* `Rdwr.Runs` — a run of it ends;
* `Rdwr.stopAfter` — how far the loop goes;
* `Rdwr.Appends` — a run appends "hello", or leaves a short file alone.

Main results:

* `Rdwr.skip_returns` — **where the loop stops**;
* `Rdwr.appends_iff` — **when the text is appended.**
-/

import AupPrograms.CInt
import AupPrograms.FileCall
import AupPrograms.Loop

set_option relaxedAutoImplicit false
set_option autoImplicit false

namespace Rdwr

open FileCall Syscall OpenFile

/-! ### The program -/

/-- "hello" -/
def hello : List UInt8 := [104, 101, 108, 108, 111]

/-- The bytes of an `int` are those of `EOF`. -/
def IsEof (ch : List UInt8) : Prop := CInt.ofBytes ch = -1

instance (ch : List UInt8) : Decidable (IsEof ch) := inferInstanceAs (Decidable (_ = _))

/-- The state of the loop: the file, the number of calls made, and the bytes of `ch`. -/
structure Skip where
  fd : OpenFile
  calls : ℕ
  ch : List UInt8

/-- The body of `while (read(fd, &ch, 1) == 1 && ch != EOF);`, which stores into the lowest byte. -/
def skipBody (r : ℕ → Outcome) (s : Skip) : Skip ⊕ Skip :=
  let got := read (r s.calls) s.fd 1
  match got.bytes with
  | [b] =>
      let s₁ : Skip := ⟨got.file, s.calls + 1, b :: s.ch.tail⟩
      if IsEof s₁.ch then .inr s₁ else .inl s₁
  | _ => .inr ⟨got.file, s.calls + 1, s.ch⟩

/-- How a run ends, the contents of the file, and the offset where the loop has stopped. -/
structure End where
  exit : Exit
  file : Option (List UInt8)
  stopped : Option ℕ
  deriving DecidableEq

/-- What is done after the loop: `write` and `close`. -/
def finish (r : ℕ → Outcome) (s : Skip) : End :=
  let w := write (r s.calls) s.fd hello
  let exit : Exit :=
    if w.ret = -1 then .failed
    else if w.ret < 5 then .exited
    else if r (s.calls + 1) = .fail then .failed
    else .returned
  ⟨exit, some w.file.bytes, some s.fd.pos⟩

/-- The program: how it ends, or `none` when the fuel ran out.  `ch` is what the variable holds at
first. -/
def main (r : ℕ → Outcome) (fuel : ℕ) (ch : ℤ) (file : Option (List UInt8)) : Option End :=
  match file with
  | none => some ⟨.failed, none, none⟩
  | some bytes =>
      if r 0 = .fail then some ⟨.failed, some bytes, none⟩
      else
        let got := read (r 1) ⟨bytes, 0⟩ 10
        if got.ret = -1 then some ⟨.failed, some bytes, none⟩
        else if got.ret < 10 then some ⟨.exited, some bytes, none⟩
        else (Loop.run (skipBody r) fuel ⟨got.file, 2, CInt.bytes 4 ch⟩).map (finish r)

/-- A run ends. -/
def Runs (r : ℕ → Outcome) (ch : ℤ) (file : Option (List UInt8)) (e : End) : Prop :=
  ∃ fuel, main r fuel ch file = some e

/-- More fuel does not change a run. -/
theorem main_mono {r : ℕ → Outcome} {n m : ℕ} (hle : n ≤ m) {ch : ℤ} {file : Option (List UInt8)}
    {e : End} (h : main r n ch file = some e) : main r m ch file = some e := by
  cases file with
  | none => exact h
  | some bytes =>
      simp only [main] at h ⊢
      split_ifs at h ⊢
      · exact h
      · exact h
      · exact h
      · obtain ⟨s, hs, rfl⟩ := Option.map_eq_some_iff.1 h
        rw [Loop.run_mono hle hs, Option.map_some]

/-- The runs on a file end in the same way. -/
theorem Runs.unique {r : ℕ → Outcome} {ch : ℤ} {file : Option (List UInt8)} {e e' : End}
    (h : Runs r ch file e) (h' : Runs r ch file e') : e = e' :=
  Loop.unique_of_mono (fun _ _ _ hle => main_mono hle) h h'

/-! ### Where the loop stops -/

/-- The three bytes that are never written leave `ch` equal to `EOF` after the byte 255 only. -/
theorem isEof_iff {upper : List UInt8} (hlen : upper.length = 3) (b : UInt8) :
    IsEof (b :: upper) ↔ b = 255 ∧ upper = [255, 255, 255] := by
  rw [IsEof, CInt.ofBytes_eq_neg_one_iff (List.cons_ne_nil b upper), List.forall_mem_cons]
  have hall : (∀ x ∈ upper, x = 255) ↔ upper = List.replicate 3 255 := by
    rw [List.eq_replicate_iff, and_iff_right hlen]
  rw [hall]
  rfl

/-- How many of the bytes that are left are read by the loop, given the upper bytes of `ch`. -/
def stopAfter (upper : List UInt8) : List UInt8 → ℕ
  | [] => 0
  | b :: bs => if IsEof (b :: upper) then 1 else stopAfter upper bs + 1

/-- They are all read unless one of them, the last one apart, is taken for `EOF`. -/
theorem stopAfter_eq_length_iff (upper bs : List UInt8) :
    stopAfter upper bs = bs.length ↔ ∀ b ∈ bs.dropLast, ¬ IsEof (b :: upper) := by
  induction bs with
  | nil => simp [stopAfter]
  | cons b bs ih =>
      cases bs with
      | nil => simp [stopAfter]
      | cons b' bs =>
          rw [List.dropLast_cons_cons, List.forall_mem_cons, ← ih, stopAfter]
          by_cases heof : IsEof (b :: upper)
          · simp [heof]
          · simp [heof]

section

variable {s : Skip} {b : UInt8} {bs : List UInt8}

theorem skipBody_end (h : s.fd.rest = []) :
    skipBody succeed s = .inr ⟨s.fd, s.calls + 1, s.ch⟩ := by
  simp only [skipBody, succeed, read_end_ok h]

theorem skipBody_eof (h : s.fd.rest = b :: bs) (heof : IsEof (b :: s.ch.tail)) :
    skipBody succeed s = .inr ⟨s.fd.skip, s.calls + 1, b :: s.ch.tail⟩ := by
  simp only [skipBody, succeed, read_one_ok h, if_pos heof]

theorem skipBody_skips (h : s.fd.rest = b :: bs) (heof : ¬ IsEof (b :: s.ch.tail)) :
    skipBody succeed s = .inl ⟨s.fd.skip, s.calls + 1, b :: s.ch.tail⟩ := by
  simp only [skipBody, succeed, read_one_ok h, if_neg heof]

end

/-- **Where the loop stops.** -/
theorem skip_returns (bs : List UInt8) (s : Skip) (h : s.fd.rest = bs) :
    ∃ s', Loop.Returns (skipBody succeed) s s' ∧
      s'.fd = { s.fd with pos := s.fd.pos + stopAfter s.ch.tail bs } := by
  induction bs generalizing s with
  | nil => exact ⟨_, (Loop.returns_of_leaves (skipBody_end h)).2 rfl, rfl⟩
  | cons b bs ih =>
      rw [stopAfter]
      by_cases heof : IsEof (b :: s.ch.tail)
      · rw [if_pos heof]
        exact ⟨_, (Loop.returns_of_leaves (skipBody_eof h heof)).2 rfl, rfl⟩
      · rw [if_neg heof]
        obtain ⟨s', hs', hfd⟩ := ih ⟨s.fd.skip, s.calls + 1, b :: s.ch.tail⟩ (read_one h).2
        refine ⟨s', (Loop.returns_of_goesOn (skipBody_skips h heof)).2 hs', ?_⟩
        rw [hfd]
        simp [skip, Nat.add_assoc, Nat.add_comm 1]

/-! ### Runs in which every call succeeds -/

/-- A short file is left alone. -/
theorem runs_short {bytes : List UInt8} (h : bytes.length < 10) (ch : ℤ) :
    Runs succeed ch (some bytes) ⟨.exited, some bytes, none⟩ := by
  have hread : read .ok ⟨bytes, 0⟩ 10 = ⟨bytes.length, bytes, ⟨bytes, bytes.length⟩⟩ := by
    simp [read_ok, OpenFile.read, rest, List.take_of_length_le h.le]
  have hne : (bytes.length : ℤ) ≠ -1 := by omega
  have hless : (bytes.length : ℤ) < 10 := by omega
  refine ⟨0, ?_⟩
  simp only [main, succeed, hread, hne, hless, if_true, if_false, reduceCtorEq]

/-- What is done after the loop. -/
theorem finish_succeed (s : Skip) :
    finish succeed s = ⟨.returned, some (s.fd.write hello).bytes, some s.fd.pos⟩ := by
  simp only [finish, succeed, write_ok]
  rfl

/-- **What a run leaves of a longer one.** -/
theorem runs_long {bytes : List UInt8} (h : 10 ≤ bytes.length) (ch : ℤ) :
    Runs succeed ch (some bytes)
      ⟨.returned,
        some (OpenFile.write ⟨bytes, 10 + stopAfter (CInt.bytes 4 ch).tail (bytes.drop 10)⟩
          hello).bytes,
        some (10 + stopAfter (CInt.bytes 4 ch).tail (bytes.drop 10))⟩ := by
  have hread : read .ok ⟨bytes, 0⟩ 10 = ⟨10, bytes.take 10, ⟨bytes, 10⟩⟩ := by
    simp [read_ok, OpenFile.read, rest, Nat.min_eq_left h]
  have hne : (10 : ℤ) ≠ -1 := by decide
  have hless : ¬ (10 : ℤ) < 10 := by decide
  obtain ⟨s, ⟨fuel, hs⟩, hfd⟩ := skip_returns (bytes.drop 10) ⟨⟨bytes, 10⟩, 2, CInt.bytes 4 ch⟩ rfl
  refine ⟨fuel, ?_⟩
  have hrest : finish succeed s = _ := finish_succeed s
  simp only [main, succeed, hread, hne, hless, if_false, reduceCtorEq] at hs hrest ⊢
  rw [hs, Option.map_some, hrest, hfd]

/-- **A run appends the text to the whole file**, or leaves a short file alone. -/
def Appends (ch : ℤ) (bytes : List UInt8) : Prop :=
  ∃ e, Runs succeed ch (some bytes) e ∧
    if bytes.length < 10 then e.file = some bytes
    else e.stopped = some bytes.length ∧ e.file = some (bytes ++ hello)

/-- **When the text is appended**: unless the three upper bytes of `ch` are 255, and so is one of
the bytes that the loop reads, the last one apart. -/
theorem appends_iff {ch : ℤ} {bytes : List UInt8} :
    Appends ch bytes ↔
      ¬ ((CInt.bytes 4 ch).tail = [255, 255, 255] ∧ 255 ∈ (bytes.drop 10).dropLast) := by
  have hlen : (CInt.bytes 4 ch).tail.length = 3 := by rw [List.length_tail, CInt.bytes_length]
  rcases Nat.lt_or_ge bytes.length 10 with hshort | hlong
  · refine iff_of_true ⟨_, runs_short hshort ch, by rw [if_pos hshort]⟩ ?_
    rw [List.drop_eq_nil_of_le hshort.le]
    simp
  · have hrun := runs_long hlong ch
    have hrest : (bytes.drop 10).length = bytes.length - 10 := List.length_drop
    have hend : Appends ch bytes ↔
        stopAfter (CInt.bytes 4 ch).tail (bytes.drop 10) = (bytes.drop 10).length := by
      have hnot : ¬ bytes.length < 10 := by omega
      simp only [Appends, if_neg hnot]
      constructor
      · rintro ⟨e, he, hstopped, -⟩
        obtain rfl := he.unique hrun
        have hpos := Option.some_inj.1 hstopped
        omega
      · intro hall
        have hpos : 10 + stopAfter (CInt.bytes 4 ch).tail (bytes.drop 10) = bytes.length := by
          omega
        refine ⟨_, hrun, congrArg some hpos, ?_⟩
        rw [hpos]
        exact congrArg some (write_bytes_end bytes hello)
    rw [hend, stopAfter_eq_length_iff]
    constructor
    · rintro hnone ⟨hupper, hmem⟩
      exact hnone 255 hmem ((isEof_iff hlen 255).2 ⟨rfl, hupper⟩)
    · intro hnot b hmem heof
      obtain ⟨rfl, hupper⟩ := (isEof_iff hlen b).1 heof
      exact hnot ⟨hupper, hmem⟩

/-- The `int` is -1 at first, and the file has the byte 255 in front of its last byte. -/
theorem not_appends_eof : ¬ Appends (-1) (List.replicate 10 48 ++ [255, 48]) := by
  intro h
  exact appends_iff.1 h (by decide)

end Rdwr
