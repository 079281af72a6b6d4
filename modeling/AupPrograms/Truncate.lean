/-
**Truncating a file to a length** (`assignment_1/truncate.c`).

`mytruncate` is to give a file the length `offset`, by writing zero bytes.  It compares the length,
narrowed to an `int`, with `offset` and has a loop of one-byte writes in either direction.  Any of
its calls may fail; which ones do is a parameter.

The loop that extends starts one byte past the end and writes the whole difference, the one that
shortens can only overwrite, and writes one byte more than it should: the first leaves `offset + 1`
bytes and the second one byte more than there were.

Main definitions:

* `Truncate.Sys` — the file and the number of calls made;
* `Truncate.mytruncate` — the function, with fuel for its loops;
* `Truncate.Truncates` — a call returns a value and leaves a state;
* `Truncate.wanted` — the contents a truncated file should have.

Main results:

* `Truncate.truncates_extend`, `Truncate.truncates_shorten` — what the function leaves;
* `Truncate.truncates_wanted_iff` — **it truncates a file exactly when there is nothing to do.**
-/

import AupPrograms.CInt
import AupPrograms.Loop
import AupPrograms.OpenFile

set_option relaxedAutoImplicit false
set_option autoImplicit false

namespace Truncate

open OpenFile

/-! ### System calls that may fail -/

/-- The file and the number of system calls made so far. -/
structure Sys where
  file : OpenFile
  calls : ℕ

/-- Which calls fail: `fails n` for the `n`-th call.  A failing call changes nothing. -/
abbrev Failures := ℕ → Bool

/-- The next call, on file `f`. -/
def Sys.next (s : Sys) (f : OpenFile) : Sys := ⟨f, s.calls + 1⟩

@[simp] theorem Sys.next_file (s : Sys) (f : OpenFile) : (s.next f).file = f := rfl

/-- `lseek`, which returns the new offset or -1. -/
def lseek (fails : Failures) (s : Sys) (offset : ℤ) (whence : Whence) : ℤ × Sys :=
  if fails s.calls then (-1, s.next s.file)
  else
    match s.file.lseek offset whence with
    | none => (-1, s.next s.file)
    | some f => (f.pos, s.next f)

/-- `write`, which returns the number of bytes written or -1. -/
def write (fails : Failures) (s : Sys) (bs : List UInt8) : ℤ × Sys :=
  if fails s.calls then (-1, s.next s.file)
  else (bs.length, s.next (s.file.write bs))

/-! ### The program -/

/-- The body of `for (int i = ...; cond; i = step i) if (write(fd, &ch, 1) != 1) return 1;`,
followed by `return 0`. -/
def forBody (fails : Failures) (cond : ℤ → Bool) (step : ℤ → ℤ) (x : ℤ × Sys) :
    (ℤ × Sys) ⊕ (ℤ × Sys) :=
  if cond x.1 then
    let w := write fails x.2 [0]
    if w.1 ≠ 1 then .inr (1, w.2) else .inl (CInt.wrap 4 (step x.1), w.2)
  else .inr (0, x.2)

/-- The loop of the branch that extends: `for (int i = offset - size; i > 0; i--)`. -/
def extendBody (fails : Failures) : ℤ × Sys → (ℤ × Sys) ⊕ (ℤ × Sys) :=
  forBody fails (fun i => i > 0) fun i => i - 1

/-- The loop of the branch that overwrites: `for (int i = pos; i <= size; i++)`. -/
def overwriteBody (fails : Failures) (size : ℤ) : ℤ × Sys → (ℤ × Sys) ⊕ (ℤ × Sys) :=
  forBody fails (fun i => i ≤ size) fun i => i + 1

/-- `mytruncate`: the value returned and the state left, or `none` when the fuel ran out. -/
def mytruncate (fails : Failures) (fuel : ℕ) (offset : ℤ) (s : Sys) : Option (ℤ × Sys) :=
  let e := lseek fails s 0 .fromEnd
  let size := CInt.wrap 4 e.1
  if size = -1 then some (1, e.2)
  else if size = offset then some (0, e.2)
  else if size < offset then
    let g := lseek fails e.2 1 .fromEnd
    if g.1 = -1 then some (1, g.2)
    else Loop.run (extendBody fails) fuel (CInt.wrap 4 (offset - size), g.2)
  else
    let g := lseek fails e.2 offset .set
    let pos := CInt.wrap 4 g.1
    if pos = -1 then some (1, g.2)
    else Loop.run (overwriteBody fails size) fuel (pos, g.2)

/-- A call of `mytruncate` on file `f` returns `r` and leaves the file `f'`. -/
def Truncates (fails : Failures) (f : OpenFile) (offset : ℤ) (r : ℤ) (f' : OpenFile) : Prop :=
  ∃ fuel s, mytruncate fails fuel offset ⟨f, 0⟩ = some (r, s) ∧ s.file = f'

/-! ### Fuel -/

/-- More fuel does not change what a call does. -/
theorem mytruncate_mono {fails : Failures} {n m : ℕ} (hle : n ≤ m) {offset : ℤ} {s : Sys}
    {r : ℤ × Sys} (h : mytruncate fails n offset s = some r) :
    mytruncate fails m offset s = some r := by
  unfold mytruncate at h ⊢
  dsimp only at h ⊢
  split_ifs at h ⊢ <;> first | exact h | exact Loop.run_mono hle h

/-- A call returns one value and leaves one file. -/
theorem Truncates.unique {fails : Failures} {f f₁ f₂ : OpenFile} {offset r₁ r₂ : ℤ}
    (h₁ : Truncates fails f offset r₁ f₁) (h₂ : Truncates fails f offset r₂ f₂) :
    r₁ = r₂ ∧ f₁ = f₂ := by
  obtain ⟨n, s₁, hn, rfl⟩ := h₁
  obtain ⟨m, s₂, hm, rfl⟩ := h₂
  have heq := Loop.unique_of_mono (fun _ _ _ hle => mytruncate_mono hle) ⟨n, hn⟩ ⟨m, hm⟩
  obtain ⟨rfl, rfl⟩ := Prod.mk.inj heq
  exact ⟨rfl, rfl⟩

/-! ### When every call succeeds -/

/-- No call fails. -/
def noFailures : Failures := fun _ => false

/-- A position inside the range of an `int` is found. -/
theorem lseek_eq {s : Sys} {offset : ℤ} {whence : Whence} {p : ℕ}
    (hp : s.file.base whence + offset = p) (hlt : p < 2 ^ 32) :
    lseek noFailures s offset whence = ((p : ℤ), s.next { s.file with pos := p }) := by
  have hlseek : s.file.lseek offset whence = some { s.file with pos := p } := by
    have hrange : 0 ≤ s.file.base whence + offset ∧ s.file.base whence + offset < 2 ^ 63 := by omega
    rw [OpenFile.lseek, if_pos hrange, hp, Int.toNat_natCast]
  simp [lseek, noFailures, hlseek]

/-- A loop that writes one zero byte in each of `k` iterations, its counter going through
`x 0, …, x k`, has written `k` zero bytes. -/
theorem forBody_returns (cond : ℤ → Bool) (step : ℤ → ℤ) (x : ℕ → ℤ) (k : ℕ)
    (hcond : ∀ j, j < k → cond (x j) = true)
    (hstep : ∀ j, j < k → CInt.wrap 4 (step (x j)) = x (j + 1))
    (hend : cond (x k) = false) (s : Sys) :
    Loop.Returns (forBody noFailures cond step) (x 0, s)
      (0, ⟨s.file.write (List.replicate k 0), s.calls + k⟩) := by
  -- after `j` iterations `j` bytes are written, as one write of `j` bytes would
  refine Loop.returns_of_sequence (k := k)
    (x := fun j => (x j, (⟨s.file.write (List.replicate j 0), s.calls + j⟩ : Sys))) ?_ ?_
  · intro j hj
    simp [forBody, hcond j hj, hstep j hj, write, noFailures, Sys.next, write_write,
      List.replicate_succ', Nat.add_assoc]
  · simp [forBody, hend]

/-- The length of the file, as the function finds it. -/
theorem lseek_end (f : OpenFile) (n : ℕ) (h : f.bytes.length < 2 ^ 31) :
    lseek noFailures ⟨f, n⟩ 0 .fromEnd
      = ((f.bytes.length : ℤ), ⟨{ f with pos := f.bytes.length }, n + 1⟩) :=
  lseek_eq (by simp [base]) (by omega)

/-- A file that has the length asked for is left alone. -/
theorem truncates_same {f : OpenFile} {offset : ℕ} (h : f.bytes.length = offset)
    (hoffset : offset < 2 ^ 31) :
    Truncates noFailures f offset 0 { f with pos := offset } := by
  subst h
  refine ⟨0, ⟨{ f with pos := f.bytes.length }, 1⟩, ?_, rfl⟩
  have hsize : CInt.wrap 4 (f.bytes.length : ℤ) = f.bytes.length :=
    CInt.wrap_eq_self (by omega) (by omega)
  have hne : (f.bytes.length : ℤ) ≠ -1 := by omega
  simp only [mytruncate, lseek_end f 0 hoffset, hsize, hne, if_false, if_true]

/-- A file that is to become longer: the loop starts one byte past the end of the file. -/
theorem mytruncate_extend {f : OpenFile} {offset : ℕ} (h : f.bytes.length < offset)
    (hoffset : offset < 2 ^ 31) (fuel : ℕ) :
    mytruncate noFailures fuel offset ⟨f, 0⟩
      = Loop.run (extendBody noFailures) fuel
          ((offset : ℤ) - f.bytes.length, ⟨{ f with pos := f.bytes.length + 1 }, 2⟩) := by
  have hsize : CInt.wrap 4 (f.bytes.length : ℤ) = f.bytes.length :=
    CInt.wrap_eq_self (by omega) (by omega)
  have hlseek : lseek noFailures ⟨{ f with pos := f.bytes.length }, 1⟩ 1 .fromEnd
      = (((f.bytes.length + 1 : ℕ) : ℤ), ⟨{ f with pos := f.bytes.length + 1 }, 2⟩) :=
    lseek_eq (by simp [base]) (by omega)
  have hdiff : CInt.wrap 4 ((offset : ℤ) - f.bytes.length) = (offset : ℤ) - f.bytes.length :=
    CInt.wrap_eq_self (by omega) (by omega)
  have hne : (f.bytes.length : ℤ) ≠ -1 := by omega
  have hne' : (f.bytes.length : ℤ) ≠ offset := by omega
  have hlt : (f.bytes.length : ℤ) < offset := by omega
  have hne'' : ((f.bytes.length + 1 : ℕ) : ℤ) ≠ -1 := by omega
  simp only [mytruncate, lseek_end f 0 (by omega), hsize, hne, hne', hlt, if_false, if_true,
    hlseek, hne'', hdiff]

/-- **A file that is to become longer gets one byte too many.** -/
theorem truncates_extend {f : OpenFile} {offset : ℕ} (h : f.bytes.length < offset)
    (hoffset : offset < 2 ^ 31) :
    Truncates noFailures f offset 0
      ⟨f.bytes ++ List.replicate (offset + 1 - f.bytes.length) 0, offset + 1⟩ := by
  let g : OpenFile := { f with pos := f.bytes.length + 1 }
  let k := offset - f.bytes.length
  have hloop : Loop.Returns (extendBody noFailures) ((offset : ℤ) - f.bytes.length, ⟨g, 2⟩)
      (0, ⟨g.write (List.replicate k 0), 2 + k⟩) := by
    have hcount := forBody_returns (fun i => i > 0) (fun i => i - 1)
      (fun j => (offset : ℤ) - f.bytes.length - j) k
      (fun j hj => by simp; omega) (fun j hj => by rw [CInt.wrap_eq_self] <;> push_cast <;> omega)
      (by simp [k]; omega) ⟨g, 2⟩
    simpa [extendBody] using hcount
  obtain ⟨fuel, hrun⟩ := hloop
  refine ⟨fuel, _, (mytruncate_extend h hoffset fuel).trans hrun, ?_⟩
  have hne : List.replicate k (0 : UInt8) ≠ [] := by simp [k]; omega
  have hgap : f.bytes.length + 1 - f.bytes.length + k = offset + 1 - f.bytes.length := by omega
  ext1
  · rw [write_bytes_past hne (by simp [g]), List.append_assoc, List.replicate_append_replicate,
      hgap]
  · simp [g, k]
    omega

/-- A file that is to become shorter: the loop starts at the new end, and runs until it has passed
the old one. -/
theorem mytruncate_shorten {f : OpenFile} {offset : ℕ} (h : offset < f.bytes.length)
    (hL : f.bytes.length < 2 ^ 31 - 1) (fuel : ℕ) :
    mytruncate noFailures fuel offset ⟨f, 0⟩
      = Loop.run (overwriteBody noFailures f.bytes.length) fuel
          ((offset : ℤ), ⟨{ f with pos := offset }, 2⟩) := by
  have hsize : CInt.wrap 4 (f.bytes.length : ℤ) = f.bytes.length :=
    CInt.wrap_eq_self (by omega) (by omega)
  have hlseek : lseek noFailures ⟨{ f with pos := f.bytes.length }, 1⟩ offset .set
      = ((offset : ℤ), ⟨{ f with pos := offset }, 2⟩) := lseek_eq (by simp [base]) (by omega)
  have hpos : CInt.wrap 4 (offset : ℤ) = offset := CInt.wrap_eq_self (by omega) (by omega)
  have hne : (f.bytes.length : ℤ) ≠ -1 := by omega
  have hne' : (f.bytes.length : ℤ) ≠ offset := by omega
  have hlt : ¬ (f.bytes.length : ℤ) < offset := by omega
  have hne'' : (offset : ℤ) ≠ -1 := by omega
  simp only [mytruncate, lseek_end f 0 (by omega), hsize, hne, hne', hlt, if_false, hlseek, hpos,
    hne'']

/-- **A file that is to become shorter becomes one byte longer.** -/
theorem truncates_shorten {f : OpenFile} {offset : ℕ} (h : offset < f.bytes.length)
    (hL : f.bytes.length < 2 ^ 31 - 1) :
    Truncates noFailures f offset 0
      ⟨f.bytes.take offset ++ List.replicate (f.bytes.length + 1 - offset) 0,
        f.bytes.length + 1⟩ := by
  let g : OpenFile := { f with pos := offset }
  let k := f.bytes.length + 1 - offset
  have hloop : Loop.Returns (overwriteBody noFailures f.bytes.length) ((offset : ℤ), ⟨g, 2⟩)
      (0, ⟨g.write (List.replicate k 0), 2 + k⟩) := by
    have hcount := forBody_returns (fun i => i ≤ f.bytes.length) (fun i => i + 1)
      (fun j => (offset : ℤ) + j) k
      (fun j hj => by simp; omega) (fun j hj => by rw [CInt.wrap_eq_self] <;> push_cast <;> omega)
      (by simp [k]; omega) ⟨g, 2⟩
    simpa [overwriteBody] using hcount
  obtain ⟨fuel, hrun⟩ := hloop
  refine ⟨fuel, _, (mytruncate_shorten h hL fuel).trans hrun, ?_⟩
  have hne : List.replicate k (0 : UInt8) ≠ [] := by simp [k]; omega
  ext1
  · rw [write_bytes_inside hne h.le, List.drop_eq_nil_of_le (by simp [g, k]; omega),
      List.append_nil]
  · simp [g, k]
    omega

/-! ### What it is for -/

/-- **The contents that truncation to `n` bytes should leave**: the first `n` bytes, then zeros. -/
def wanted (bytes : List UInt8) (n : ℕ) : List UInt8 :=
  bytes.take n ++ List.replicate (n - bytes.length) 0

theorem wanted_length (bytes : List UInt8) (n : ℕ) : (wanted bytes n).length = n := by
  simp [wanted]
  omega

/-- **`mytruncate` gives a file the length asked for exactly when it has that length already**, even
when none of its calls fails. -/
theorem truncates_wanted_iff {f : OpenFile} {offset : ℕ} (hL : f.bytes.length < 2 ^ 31 - 1)
    (hoffset : offset < 2 ^ 31) :
    (∃ f', Truncates noFailures f offset 0 f' ∧ f'.bytes = wanted f.bytes offset) ↔
      f.bytes.length = offset := by
  constructor
  · rintro ⟨f', hf', hbytes⟩
    have hlen : f'.bytes.length = offset := by rw [hbytes, wanted_length]
    rcases lt_trichotomy f.bytes.length offset with hlt | heq | hgt
    · obtain ⟨-, rfl⟩ := hf'.unique (truncates_extend hlt hoffset)
      simp at hlen
      omega
    · exact heq
    · obtain ⟨-, rfl⟩ := hf'.unique (truncates_shorten hgt hL)
      simp at hlen
      omega
  · rintro rfl
    exact ⟨_, truncates_same rfl (by omega), by simp [wanted]⟩

/-- `hello` is given its own length. -/
theorem truncates_wanted_iff_hello :
    ∃ f', Truncates noFailures ⟨[104, 101, 108, 108, 111], 0⟩ (5 : ℕ) 0 f' ∧
      f'.bytes = wanted [104, 101, 108, 108, 111] 5 :=
  (truncates_wanted_iff (by decide) (by decide)).2 rfl

/-- `hello` is to be truncated to two bytes, and has six afterwards. -/
theorem not_truncates_hello :
    ¬ ∃ f', Truncates noFailures ⟨[104, 101, 108, 108, 111], 0⟩ (2 : ℕ) 0 f' ∧
      f'.bytes = wanted [104, 101, 108, 108, 111] 2 := by
  rintro ⟨f', hf', hbytes⟩
  obtain ⟨-, rfl⟩ := hf'.unique (truncates_shorten (by decide) (by decide))
  revert hbytes
  decide

end Truncate
