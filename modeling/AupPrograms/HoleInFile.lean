/-
**A file with holes, and its copy without them** (`assignment_1/hole_in_file.c`).

The program opens a file, which it creates when it is missing, writes ten '#' at the offsets 10 and
30, and then copies the file byte by byte, without the zero bytes, over the beginning of another
one.  The other file is not truncated.  The loop stops at the end of the file, or at a byte that,
as a `char`, is equal to `EOF`.  (The two calls of `system` only print files.)

Any call may fail or transfer fewer bytes.  The results are about the runs in which none does, with
two different files.

Main definitions:

* `HoleInFile.main` — the program, with fuel for its loop;
* `HoleInFile.Runs` — a run of it ends;
* `HoleInFile.sparsely` — the file with the '#' in it;
* `HoleInFile.copied` — what the loop copies of a file.

Main results:

* `HoleInFile.runs_succeed` — **what a run leaves**;
* `HoleInFile.copies_nonzero_iff` — **when every byte that is not zero is copied**;
* `HoleInFile.same_copy_iff` — **when the copy does not depend on what was in its file before**;
* `HoleInFile.runs_twice` — **a second run changes nothing.**
-/

import AupPrograms.CInt
import AupPrograms.FileCall
import AupPrograms.Loop
import Mathlib.Data.List.TakeWhile

set_option relaxedAutoImplicit false
set_option autoImplicit false

namespace HoleInFile

open FileCall Syscall OpenFile

/-! ### The program -/

/-- "##########" -/
def hashes : List UInt8 := List.replicate 10 35

/-- The `char` `ch` is equal to `EOF`. -/
def IsEof (ch : UInt8) : Prop := CInt.ofBytes [ch] = -1

instance (ch : UInt8) : Decidable (IsEof ch) := inferInstanceAs (Decidable (_ = _))

/-- The calls on `fd` before the copy: the file, and how the program ended if it did. -/
def sparse (r : ℕ → Outcome) (f : OpenFile) : OpenFile × Option Exit :=
  let s₁ := lseek (r 1) f 10 .set
  if s₁.ret = -1 then (s₁.file, some .failed)
  else
    let w₁ := write (r 2) s₁.file hashes
    if w₁.ret = -1 then (w₁.file, some .failed)
    else if w₁.ret < 10 then (w₁.file, some .exited)
    else
      let s₂ := lseek (r 3) w₁.file 30 .set
      if s₂.ret = -1 then (s₂.file, some .failed)
      else
        let w₂ := write (r 4) s₂.file hashes
        -- compared with 1, not with -1
        if w₂.ret = 1 then (w₂.file, some .failed)
        else if w₂.ret < 10 then (w₂.file, some .exited)
        else
          -- a failure is printed, and the program goes on
          let s₃ := lseek (r 5) w₂.file 0 .set
          (s₃.file, none)

/-- The state of the loop: the two files, the number of calls made, and the bytes written. -/
structure Copy where
  fd : OpenFile
  fd_new : OpenFile
  calls : ℕ
  written : List UInt8

/-- The body of `while (read(fd, &ch, 1) == 1 && ch != EOF)`. -/
def copyBody (r : ℕ → Outcome) (c : Copy) : Copy ⊕ (Copy × Option Exit) :=
  let got := read (r c.calls) c.fd 1
  let c₁ : Copy := { c with fd := got.file, calls := c.calls + 1 }
  match got.bytes with
  | [ch] =>
      if IsEof ch then .inr (c₁, none)
      else if ch = 0 then .inl c₁
      else
        let w := write (r c₁.calls) c₁.fd_new [ch]
        let c₂ : Copy := { c₁ with fd_new := w.file, calls := c₁.calls + 1 }
        -- fewer bytes written than requested go unnoticed
        if w.ret = -1 then .inr (c₂, some .failed)
        else .inl { c₂ with written := c.written ++ [ch].take w.ret.toNat }
  | _ => .inr (c₁, none)

/-- How a run ends, with the contents of the files and the bytes that the loop has written. -/
structure End where
  exit : Exit
  source : Option (List UInt8)
  dest : Option (List UInt8)
  written : List UInt8
  deriving DecidableEq

/-- `close(fd)` and `close(fd_new)`, unless the program has ended before. -/
def closes (r : ℕ → Outcome) (c : Copy × Option Exit) : End where
  exit := c.2.getD (if r c.1.calls = .fail ∨ r (c.1.calls + 1) = .fail then .failed else .returned)
  source := some c.1.fd.bytes
  dest := some c.1.fd_new.bytes
  written := c.1.written

/-- The program: how it ends, or `none` when the fuel ran out. -/
def main (r : ℕ → Outcome) (fuel : ℕ) (source dest : Option (List UInt8)) : Option End :=
  if r 0 = .fail then some ⟨.failed, source, dest, []⟩
  else
    let f := sparse r ⟨source.getD [], 0⟩
    match f.2 with
    | some exit => some ⟨exit, some f.1.bytes, dest, []⟩
    | none =>
        if r 6 = .fail then some ⟨.failed, some f.1.bytes, dest, []⟩
        else (Loop.run (copyBody r) fuel ⟨f.1, ⟨dest.getD [], 0⟩, 7, []⟩).map (closes r)

/-- A run on these files ends. -/
def Runs (r : ℕ → Outcome) (source dest : Option (List UInt8)) (e : End) : Prop :=
  ∃ fuel, main r fuel source dest = some e

/-- More fuel does not change a run. -/
theorem main_mono {r : ℕ → Outcome} {n m : ℕ} (hle : n ≤ m) {source dest : Option (List UInt8)}
    {e : End} (h : main r n source dest = some e) : main r m source dest = some e := by
  unfold main at h ⊢
  split_ifs at h ⊢ with hopen hopen_new
  · exact h
  · exact h
  · cases hexit : (sparse r ⟨source.getD [], 0⟩).2 with
    | some exit => simpa only [hexit] using h
    | none =>
        simp only [hexit] at h ⊢
        obtain ⟨c, hc, rfl⟩ := Option.map_eq_some_iff.1 h
        rw [Loop.run_mono hle hc, Option.map_some]

/-- The runs on these files end in the same way. -/
theorem Runs.unique {r : ℕ → Outcome} {source dest : Option (List UInt8)} {e e' : End}
    (h : Runs r source dest e) (h' : Runs r source dest e') : e = e' :=
  Loop.unique_of_mono (fun _ _ _ hle => main_mono hle) h h'

/-! ### The sparse writes -/

/-- **The file with ten '#' at the offsets 10 and 30.** -/
def sparsely (bytes : List UInt8) : List UInt8 :=
  (write ⟨(write ⟨bytes, 10⟩ hashes).bytes, 30⟩ hashes).bytes

theorem sparse_succeed (bytes : List UInt8) :
    sparse succeed ⟨bytes, 0⟩ = (⟨sparsely bytes, 0⟩, none) := by
  have hseek₁ : ∀ f, lseek .ok f 10 .set = ⟨10, [], { f with pos := 10 }⟩ := fun _ =>
    lseek_ok (by decide)
  have hseek₂ : ∀ f, lseek .ok f 30 .set = ⟨30, [], { f with pos := 30 }⟩ := fun _ =>
    lseek_ok (by decide)
  have hseek₃ : ∀ f, lseek .ok f 0 .set = ⟨0, [], { f with pos := 0 }⟩ := fun _ =>
    lseek_ok (by decide)
  have hlen : (hashes.length : ℤ) = 10 := rfl
  simp [sparse, succeed, hseek₁, hseek₂, hseek₃, write_ok, hlen, sparsely]

/-- A write of '#' at an offset. -/
theorem getElem?_write_hashes (bytes : List UInt8) (n i : ℕ) :
    (OpenFile.write ⟨bytes, n⟩ hashes).bytes[i]? =
      if n ≤ i ∧ i < n + 10 then some 35
      else if i < n then some (bytes.getD i 0)
      else bytes[i]? := by
  have hne : hashes ≠ [] := by decide
  have hlen : hashes.length = 10 := rfl
  rw [getElem?_write hne, hlen]
  by_cases hlo : i < n
  · rw [if_pos hlo, if_neg (by omega), if_pos hlo]
  · rw [if_neg hlo]
    by_cases hhi : i < n + 10
    · have hin : i - n < 10 := by omega
      rw [if_pos hhi, if_pos (by omega), hashes, List.getElem?_replicate, if_pos hin]
    · rw [if_neg hhi, if_neg (by omega), if_neg hlo]

/-- The offset is one of those that are written. -/
def Hashed (i : ℕ) : Prop := 10 ≤ i ∧ i < 20 ∨ 30 ≤ i ∧ i < 40

instance (i : ℕ) : Decidable (Hashed i) := inferInstanceAs (Decidable (_ ∨ _))

/-- **Each byte of the file.** -/
theorem getElem?_sparsely (bytes : List UInt8) (i : ℕ) :
    (sparsely bytes)[i]? =
      if Hashed i then some 35 else if i < 40 then some (bytes.getD i 0) else bytes[i]? := by
  rw [sparsely, getElem?_write_hashes, List.getD_eq_getElem?_getD, getElem?_write_hashes]
  by_cases hsecond : 30 ≤ i ∧ i < 40
  · rw [if_pos hsecond, if_pos (.inr hsecond)]
  by_cases hfirst : 10 ≤ i ∧ i < 20
  · rw [if_neg hsecond, if_pos (by omega), if_pos hfirst, if_pos (.inl hfirst), Option.getD_some]
  have hhashed : ¬ Hashed i := fun h => h.elim hfirst hsecond
  rw [if_neg hsecond, if_neg hfirst, if_neg hhashed]
  by_cases hlow : i < 40
  · -- in front of the second place, in front of the first one or behind it
    rw [if_pos hlow, if_pos (by omega)]
    split_ifs
    · rfl
    · rw [List.getD_eq_getElem?_getD]
  · rw [if_neg hlow, if_neg (by omega), if_neg (by omega)]

/-- What is written at other offsets stays, and zero bytes fill the gaps. -/
theorem mem_sparsely {bytes : List UInt8} {b : UInt8} (hhash : b ≠ 35) (hzero : b ≠ 0) :
    b ∈ sparsely bytes ↔ ∃ i, ¬ Hashed i ∧ bytes[i]? = some b := by
  rw [List.mem_iff_getElem?]
  refine exists_congr fun i => ?_
  rw [getElem?_sparsely]
  split_ifs with hhashed hlow
  · simp [hhashed, hhash.symm]
  · cases hi : bytes[i]? with
    | none => simp [List.getD_eq_getElem?_getD, hi, hzero.symm]
    | some b' => simp [List.getD_eq_getElem?_getD, hi, hhashed]
  · simp [hhashed]

/-- **Writing the '#' again changes nothing.** -/
theorem sparsely_sparsely (bytes : List UInt8) : sparsely (sparsely bytes) = sparsely bytes := by
  refine List.ext_getElem? fun i => ?_
  rw [getElem?_sparsely (sparsely bytes), List.getD_eq_getElem?_getD, getElem?_sparsely bytes]
  split_ifs <;> rfl

/-! ### The copy -/

theorem isEof_iff (ch : UInt8) : IsEof ch ↔ ch = 255 := by
  rw [IsEof, CInt.ofBytes_eq_neg_one_iff (List.cons_ne_nil ch []), List.forall_mem_singleton]

/-- **What the loop copies**: what is not zero, up to the first byte that is taken for `EOF`. -/
def copied (bytes : List UInt8) : List UInt8 :=
  (bytes.takeWhile fun ch => ¬ IsEof ch).filter (· ≠ 0)

section

variable {c : Copy} {ch : UInt8} {bs : List UInt8}

/-- At the end of the file the loop is left. -/
theorem copyBody_end (h : c.fd.rest = []) :
    copyBody succeed c = .inr ({ c with calls := c.calls + 1 }, none) := by
  simp only [copyBody, succeed, read_end_ok h]

/-- At `EOF` it is left too. -/
theorem copyBody_eof (h : c.fd.rest = ch :: bs) (heof : IsEof ch) :
    copyBody succeed c = .inr ({ c with fd := c.fd.skip, calls := c.calls + 1 }, none) := by
  simp only [copyBody, succeed, read_one_ok h, if_pos heof]

/-- A hole is skipped. -/
theorem copyBody_zero (h : c.fd.rest = ch :: bs) (heof : ¬ IsEof ch) (hzero : ch = 0) :
    copyBody succeed c = .inl { c with fd := c.fd.skip, calls := c.calls + 1 } := by
  simp only [copyBody, succeed, read_one_ok h, if_neg heof, if_pos hzero]

/-- Any other byte is written. -/
theorem copyBody_writes (h : c.fd.rest = ch :: bs) (heof : ¬ IsEof ch) (hzero : ch ≠ 0) :
    copyBody succeed c = .inl ⟨c.fd.skip, c.fd_new.write [ch], c.calls + 2, c.written ++ [ch]⟩ := by
  simp only [copyBody, succeed, read_one_ok h, if_neg heof, if_neg hzero, write_ok]
  rfl

end

/-- **The loop**: it writes what there is to copy of the rest of the file. -/
theorem copy_returns (bs : List UInt8) (c : Copy) (h : c.fd.rest = bs) :
    ∃ c', Loop.Returns (copyBody succeed) c (c', none) ∧ c'.fd.bytes = c.fd.bytes ∧
      c'.fd_new = c.fd_new.write (copied bs) ∧ c'.written = c.written ++ copied bs := by
  induction bs generalizing c with
  | nil =>
      refine ⟨_, (Loop.returns_of_leaves (copyBody_end h)).2 rfl, rfl, rfl, ?_⟩
      exact (List.append_nil _).symm
  | cons ch bs ih =>
      have hskip : c.fd.skip.rest = bs := (read_one h).2
      by_cases heof : IsEof ch
      · have hcopied : copied (ch :: bs) = [] := by
          rw [copied, List.takeWhile_cons_of_neg (by simpa using heof), List.filter_nil]
        rw [hcopied]
        refine ⟨_, (Loop.returns_of_leaves (copyBody_eof h heof)).2 rfl, rfl, rfl, ?_⟩
        exact (List.append_nil _).symm
      · by_cases hzero : ch = 0
        · have hcopied : copied (ch :: bs) = copied bs := by
            rw [copied, List.takeWhile_cons_of_pos (by simpa using heof),
              List.filter_cons_of_neg (by simpa using hzero)]
            rfl
          rw [hcopied]
          simp only [Loop.returns_of_goesOn (copyBody_zero h heof hzero)]
          exact ih _ hskip
        · have hcopied : copied (ch :: bs) = ch :: copied bs := by
            rw [copied, List.takeWhile_cons_of_pos (by simpa using heof),
              List.filter_cons_of_pos (by simpa using hzero)]
            rfl
          obtain ⟨c', hc', hfd, hnew, hwritten⟩ := ih
            ⟨c.fd.skip, c.fd_new.write [ch], c.calls + 2, c.written ++ [ch]⟩ hskip
          refine ⟨c', (Loop.returns_of_goesOn (copyBody_writes h heof hzero)).2 hc', hfd, ?_, ?_⟩
          · rw [hnew, hcopied]
            exact write_write c.fd_new [ch] (copied bs)
          · rw [hwritten, hcopied]
            simp

/-! ### Runs in which every call succeeds -/

/-- The file whose beginning is overwritten with the copy of `bytes`. -/
def overwritten (bytes dest : List UInt8) : List UInt8 :=
  copied bytes ++ dest.drop (copied bytes).length

/-- **What a run leaves.** -/
theorem runs_succeed (source dest : Option (List UInt8)) :
    Runs succeed source dest ⟨.returned, some (sparsely (source.getD [])),
      some (overwritten (sparsely (source.getD [])) (dest.getD [])),
      copied (sparsely (source.getD []))⟩ := by
  obtain ⟨c, ⟨fuel, hc⟩, hfd, hnew, hwritten⟩ := copy_returns (sparsely (source.getD []))
    ⟨⟨sparsely (source.getD []), 0⟩, ⟨dest.getD [], 0⟩, 7, []⟩ rfl
  refine ⟨fuel, ?_⟩
  have hok : succeed 0 ≠ .fail ∧ succeed 6 ≠ .fail := ⟨by decide, by decide⟩
  simp only [main, if_neg hok.1, sparse_succeed, if_neg hok.2, hc, Option.map_some]
  simp only [closes, hfd, hnew, hwritten, write_bytes_zero, List.nil_append, overwritten]
  rfl

/-! ### Every byte that is not zero -/

/-- **The loop writes the bytes of the file that are not zero**, all of them and in their order. -/
def CopiesNonzero (source dest : Option (List UInt8)) : Prop :=
  ∃ e, Runs succeed source dest e ∧ e.written = (e.source.getD []).filter (· ≠ 0)

/-- Everything is copied when no byte is taken for `EOF`. -/
theorem copied_eq_filter_iff (bytes : List UInt8) :
    copied bytes = bytes.filter (· ≠ 0) ↔ 255 ∉ bytes := by
  constructor
  · intro h hmem
    -- it is not zero, and it is not copied
    have hcopied : (255 : UInt8) ∈ copied bytes := by
      rw [h]
      exact List.mem_filter.2 ⟨hmem, by decide⟩
    have heof := List.mem_takeWhile_imp (List.mem_filter.1 hcopied).1
    simp [isEof_iff] at heof
  · intro h
    have hall : bytes.takeWhile (fun ch => ¬ IsEof ch) = bytes := by
      refine List.takeWhile_eq_self_iff.2 fun ch hch => ?_
      simp only [isEof_iff, decide_eq_true_eq]
      exact fun heq => h (heq ▸ hch)
    rw [copied, hall]

/-- **Every byte that is not zero is copied exactly when the file had no byte 255**, but for those
that are overwritten with '#'. -/
theorem copies_nonzero_iff {source dest : Option (List UInt8)} :
    CopiesNonzero source dest ↔ ∀ i, (source.getD [])[i]? = some 255 → Hashed i := by
  have hrun := runs_succeed source dest
  have hcopies : CopiesNonzero source dest ↔
      copied (sparsely (source.getD [])) = (sparsely (source.getD [])).filter (· ≠ 0) := by
    constructor
    · rintro ⟨e, he, hwritten⟩
      obtain rfl := he.unique hrun
      exact hwritten
    · intro h
      exact ⟨_, hrun, h⟩
  rw [hcopies, copied_eq_filter_iff, mem_sparsely (by decide) (by decide)]
  push Not
  exact forall_congr' fun i => not_imp_not.symm.trans (by simp)

/-- A file that begins with the byte 255 is not copied at all. -/
theorem not_copiesNonzero_eof : ¬ CopiesNonzero (some [255]) none := by
  intro h
  have hhashed := copies_nonzero_iff.1 h 0 rfl
  exact absurd hhashed (by decide)

/-! ### What was in the file before -/

/-- **The copies into two files are the same.** -/
def SameCopy (source dest₁ dest₂ : Option (List UInt8)) : Prop :=
  ∃ e₁ e₂, Runs succeed source dest₁ e₁ ∧ Runs succeed source dest₂ e₂ ∧ e₁.dest = e₂.dest

/-- **The copies are the same exactly when the files agree behind what is copied.** -/
theorem same_copy_iff {source dest₁ dest₂ : Option (List UInt8)} :
    SameCopy source dest₁ dest₂ ↔
      (dest₁.getD []).drop (copied (sparsely (source.getD []))).length
        = (dest₂.getD []).drop (copied (sparsely (source.getD []))).length := by
  have hrun₁ := runs_succeed source dest₁
  have hrun₂ := runs_succeed source dest₂
  constructor
  · rintro ⟨e₁, e₂, he₁, he₂, hdest⟩
    obtain rfl := he₁.unique hrun₁
    obtain rfl := he₂.unique hrun₂
    exact List.append_cancel_left (Option.some_inj.1 hdest)
  · intro h
    refine ⟨_, _, hrun₁, hrun₂, ?_⟩
    simp only [overwritten, h]

/-- What was behind the first 20 bytes of the file is still there. -/
theorem not_sameCopy_tail : ¬ SameCopy none none (some (List.replicate 21 97)) := by
  intro h
  exact absurd (same_copy_iff.1 h) (by decide)

/-! ### A second run -/

theorem overwritten_overwritten (bytes dest : List UInt8) :
    overwritten bytes (overwritten bytes dest) = overwritten bytes dest := by
  rw [overwritten, overwritten, List.drop_left]

/-- **A second run changes nothing.** -/
theorem runs_twice (source dest : Option (List UInt8)) :
    ∃ e, Runs succeed source dest e ∧ ∃ e', Runs succeed e.source e.dest e' ∧
      e'.source = e.source ∧ e'.dest = e.dest := by
  refine ⟨_, runs_succeed source dest, _, runs_succeed _ _, ?_, ?_⟩
  · simp only [Option.getD_some, sparsely_sparsely]
  · simp only [Option.getD_some, sparsely_sparsely, overwritten_overwritten]

end HoleInFile
