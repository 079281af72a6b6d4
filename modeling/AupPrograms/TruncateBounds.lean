/-
**The loops of `mytruncate` and the range of an `int`** (`assignment_1/truncate.c`).

The counter of both loops is an `int`.  The loop that extends counts down from `offset - size`, the
one that overwrites counts up while `i <= size`.  If `size` is the greatest `int`, this condition
holds for every `i`: the increment leaves the range of an `int`, and if it wraps around, the loop
never ends.

Main definitions:

* `Truncate.InInt` — the range of an `int`;
* `Truncate.StepsInInt` — every step of the counter of a loop stays in it;
* `Truncate.Bounded` — a call returns, and what it computes stays in the range.

Main results:

* `Truncate.extend_loop`, `Truncate.overwrite_loop` — the loops that end;
* `Truncate.not_returns_overwrite_max` — the loop that does not;
* `Truncate.bounded_iff` — **when the loops of a call are bounded.**
-/

import AupPrograms.TruncateBranches

set_option relaxedAutoImplicit false
set_option autoImplicit false

namespace Truncate

open OpenFile

/-! ### Counters -/

/-- The range of an `int`. -/
def InInt (x : ℤ) : Prop := -2 ^ 31 ≤ x ∧ x < 2 ^ 31

/-- The counter of a loop that is started in `x` is never stepped out of the range of an `int`: this
is so at every iteration that goes on. -/
def StepsInInt (body : ℤ × Sys → (ℤ × Sys) ⊕ (ℤ × Sys)) (step : ℤ → ℤ) (x : ℤ × Sys) : Prop :=
  ∀ i s y, Loop.Reaches body x (i, s) → body (i, s) = .inl y → InInt (step i)

/-- `lseek(fd, 1, SEEK_END)` in the branch that extends. -/
def extendSeek (fails : Failures) (f : OpenFile) : ℤ × Sys :=
  lseek fails (atEnd fails ⟨f, 0⟩) 1 .fromEnd

/-- `lseek(fd, offset, SEEK_SET)` in the branch that overwrites. -/
def overwriteSeek (fails : Failures) (f : OpenFile) (offset : ℤ) : ℤ × Sys :=
  lseek fails (atEnd fails ⟨f, 0⟩) offset .set

/-- **A call is bounded**: it returns, and the subtraction and every increment or decrement that it
makes stay in the range of an `int`. -/
structure Bounded (fails : Failures) (f : OpenFile) (offset : ℤ) : Prop where
  returns : ∃ r f', Truncates fails f offset r f'
  subtraction : entered fails offset ⟨f, 0⟩ = .extend → (extendSeek fails f).1 ≠ -1 →
    InInt (offset - foundSize fails ⟨f, 0⟩)
  decrement : entered fails offset ⟨f, 0⟩ = .extend → (extendSeek fails f).1 ≠ -1 →
    StepsInInt (extendBody fails) (fun i => i - 1)
      (CInt.wrap 4 (offset - foundSize fails ⟨f, 0⟩), (extendSeek fails f).2)
  increment : entered fails offset ⟨f, 0⟩ = .overwrite →
    CInt.wrap 4 (overwriteSeek fails f offset).1 ≠ -1 →
    StepsInInt (overwriteBody fails (foundSize fails ⟨f, 0⟩)) (fun i => i + 1)
      (CInt.wrap 4 (overwriteSeek fails f offset).1, (overwriteSeek fails f offset).2)

/-! ### One iteration -/

section

variable {fails : Failures} {cond : ℤ → Bool} {step : ℤ → ℤ} {x : ℤ} {s : Sys} {y : ℤ × Sys}

/-- An iteration that goes on steps the counter. -/
theorem forBody_inl (h : forBody fails cond step (x, s) = .inl y) :
    cond x = true ∧ y.1 = CInt.wrap 4 (step x) := by
  cases hcond : cond x with
  | false =>
      rw [forBody_ends hcond] at h
      cases h
  | true =>
      cases hfails : fails s.calls with
      | true =>
          rw [forBody_fails hcond hfails] at h
          cases h
      | false =>
          rw [forBody_writes hcond hfails] at h
          obtain rfl := Sum.inl.inj h
          exact ⟨rfl, rfl⟩

end

/-- **The rule for the counter**: if it stays in a part of the range of an `int` where a number
decreases with each step, the loop ends, and no step leaves the range. -/
theorem forBody_bounded {fails : Failures} {cond : ℤ → Bool} {step : ℤ → ℤ} {I : ℤ → Prop}
    (m : ℤ → ℕ)
    (hstep : ∀ i, I i → cond i = true → InInt (step i) ∧ I (step i) ∧ m (step i) < m i) {x : ℤ}
    (hx : I x) (s : Sys) :
    (∃ r, Loop.Returns (forBody fails cond step) (x, s) r) ∧
      StepsInInt (forBody fails cond step) step (x, s) := by
  have hnext : ∀ z y : ℤ × Sys, I z.1 → forBody fails cond step z = .inl y →
      I y.1 ∧ m y.1 < m z.1 := by
    rintro ⟨i, s⟩ y hi hy
    obtain ⟨hcond, heq⟩ := forBody_inl hy
    obtain ⟨⟨hlo, hhi⟩, hI, hm⟩ := hstep i hi hcond
    rw [heq, CInt.wrap_eq_self (by omega) (by omega)]
    exact ⟨hI, hm⟩
  constructor
  · exact Loop.exists_returns_of_measure (I := fun z => I z.1) (fun z => m z.1) hnext hx
  · intro i s' y hreach hy
    have hi : I (i, s').1 :=
      hreach.of_invariant (I := fun z => I z.1) (fun z y hz hy => (hnext z y hz hy).1) hx
    exact (hstep i hi (forBody_inl hy).1).1

/-- The loop that extends ends. -/
theorem extend_loop (fails : Failures) {x : ℤ} (hlo : 0 ≤ x) (hhi : x < 2 ^ 31) (s : Sys) :
    (∃ r, Loop.Returns (extendBody fails) (x, s) r) ∧
      StepsInInt (extendBody fails) (fun i => i - 1) (x, s) := by
  refine forBody_bounded (I := fun i => 0 ≤ i ∧ i < 2 ^ 31) Int.toNat ?_ ⟨hlo, hhi⟩ s
  rintro i ⟨h₀, h₁⟩ hcond
  have hpos : 0 < i := of_decide_eq_true hcond
  exact ⟨⟨by omega, by omega⟩, ⟨by omega, by omega⟩, by omega⟩

/-- The loop that overwrites ends, if `size` is not the greatest `int`. -/
theorem overwrite_loop (fails : Failures) {size x : ℤ} (hsize : size < 2 ^ 31 - 1) (hlo : 0 ≤ x)
    (s : Sys) :
    (∃ r, Loop.Returns (overwriteBody fails size) (x, s) r) ∧
      StepsInInt (overwriteBody fails size) (fun i => i + 1) (x, s) := by
  refine forBody_bounded (I := fun i => 0 ≤ i) (fun i => (size + 1 - i).toNat) ?_ hlo s
  intro i h₀ hcond
  have hle : i ≤ size := of_decide_eq_true hcond
  exact ⟨⟨by omega, by omega⟩, by omega, by omega⟩

/-- **With the greatest `int` for `size` the loop that overwrites does not end**, if no write
fails. -/
theorem not_returns_overwrite_max {fails : Failures} (hwrites : ∀ n, 2 ≤ n → fails n = false)
    {x : ℤ} (hx : x < 2 ^ 31) {s : Sys} (hs : 2 ≤ s.calls) (r : ℤ × Sys) :
    ¬ Loop.Returns (overwriteBody fails (2 ^ 31 - 1)) (x, s) r := by
  refine Loop.not_returns_of_invariant (I := fun z : ℤ × Sys => z.1 < 2 ^ 31 ∧ 2 ≤ z.2.calls) ?_
    ⟨hx, hs⟩ r
  rintro ⟨i, s⟩ ⟨hi, hcalls⟩
  have hcond : decide (i ≤ 2 ^ 31 - 1) = true := decide_eq_true (by simp only at hi; omega)
  refine ⟨_, forBody_writes hcond (hwrites s.calls hcalls), ?_, ?_⟩
  · have hlt := CInt.wrap_lt 4 (i + 1)
    show CInt.wrap 4 (i + 1) < 2 ^ 31
    omega
  · exact Nat.le_succ_of_le hcalls

/-! ### The whole call -/

section

variable {fails : Failures} {f : OpenFile} {offset : ℤ}

/-- A call that enters no loop. -/
theorem bounded_of_no_loop (hextend : entered fails offset ⟨f, 0⟩ ≠ .extend)
    (hoverwrite : entered fails offset ⟨f, 0⟩ ≠ .overwrite) : Bounded fails f offset where
  returns := by
    cases hbranch : entered fails offset ⟨f, 0⟩ with
    | failed => exact ⟨1, _, 0, atEnd fails ⟨f, 0⟩, by rw [mytruncate_eq, hbranch], rfl⟩
    | same => exact ⟨0, _, 0, atEnd fails ⟨f, 0⟩, by rw [mytruncate_eq, hbranch], rfl⟩
    | extend => exact absurd hbranch hextend
    | overwrite => exact absurd hbranch hoverwrite
  subtraction h := absurd h hextend
  decrement h := absurd h hextend
  increment h := absurd h hoverwrite

/-- A call that enters the branch that extends, where the difference is an `int`. -/
theorem bounded_of_extend (hbranch : entered fails offset ⟨f, 0⟩ = .extend)
    (hlo : 0 ≤ offset - foundSize fails ⟨f, 0⟩) (hhi : offset - foundSize fails ⟨f, 0⟩ < 2 ^ 31) :
    Bounded fails f offset := by
  have hint : InInt (offset - foundSize fails ⟨f, 0⟩) := ⟨by omega, hhi⟩
  have hloop := extend_loop fails hlo hhi (extendSeek fails f).2
  have hwrap : CInt.wrap 4 (offset - foundSize fails ⟨f, 0⟩) = offset - foundSize fails ⟨f, 0⟩ :=
    CInt.wrap_eq_self (by omega) (by omega)
  rw [← hwrap] at hloop
  refine ⟨?_, fun _ _ => hint, fun _ _ => hloop.2, fun h => ?_⟩
  · by_cases hseek : (extendSeek fails f).1 = -1
    · refine ⟨1, _, 0, (extendSeek fails f).2, ?_, rfl⟩
      rw [mytruncate_eq, hbranch]
      exact if_pos hseek
    · obtain ⟨⟨r, s⟩, fuel, hrun⟩ := hloop.1
      refine ⟨r, _, fuel, s, ?_, rfl⟩
      rw [mytruncate_eq, hbranch]
      exact (if_neg hseek).trans hrun
  · rw [hbranch] at h
    cases h

/-- A call that enters the branch that overwrites, if the loop there ends. -/
theorem bounded_of_overwrite (hbranch : entered fails offset ⟨f, 0⟩ = .overwrite)
    (hloop : CInt.wrap 4 (overwriteSeek fails f offset).1 ≠ -1 →
      (∃ r, Loop.Returns (overwriteBody fails (foundSize fails ⟨f, 0⟩))
        (CInt.wrap 4 (overwriteSeek fails f offset).1, (overwriteSeek fails f offset).2) r) ∧
      StepsInInt (overwriteBody fails (foundSize fails ⟨f, 0⟩)) (fun i => i + 1)
        (CInt.wrap 4 (overwriteSeek fails f offset).1, (overwriteSeek fails f offset).2)) :
    Bounded fails f offset := by
  refine ⟨?_, fun h => ?_, fun h => ?_, fun _ hseek => (hloop hseek).2⟩
  · by_cases hseek : CInt.wrap 4 (overwriteSeek fails f offset).1 = -1
    · refine ⟨1, _, 0, (overwriteSeek fails f offset).2, ?_, rfl⟩
      rw [mytruncate_eq, hbranch]
      exact if_pos hseek
    · obtain ⟨⟨r, s⟩, fuel, hrun⟩ := (hloop hseek).1
      refine ⟨r, _, fuel, s, ?_, rfl⟩
      rw [mytruncate_eq, hbranch]
      exact (if_neg hseek).trans hrun
  · rw [hbranch] at h
    cases h
  · rw [hbranch] at h
    cases h

/-- The second call of `lseek` in the branch that overwrites. -/
theorem overwriteSeek_of_fails (h : fails 1 = true) : (overwriteSeek fails f offset).1 = -1 := by
  rw [overwriteSeek, lseek, atEnd_calls, if_pos h]

theorem overwriteSeek_of_succeeds (h : fails 1 = false) (hlo : 0 ≤ offset) (hhi : offset < 2 ^ 31) :
    (overwriteSeek fails f offset).1 = offset := by
  have hlseek : (atEnd fails ⟨f, 0⟩).file.lseek offset .set =
      some { (atEnd fails ⟨f, 0⟩).file with pos := offset.toNat } := by
    have hrange : 0 ≤ (atEnd fails ⟨f, 0⟩).file.base .set + offset ∧
        (atEnd fails ⟨f, 0⟩).file.base .set + offset < 2 ^ 63 := by
      rw [base]
      omega
    rw [OpenFile.lseek, if_pos hrange, base, Int.zero_add]
  rw [overwriteSeek, lseek, atEnd_calls, h, hlseek]
  exact Int.toNat_of_nonneg hlo

end

/-- A file of the greatest length that is an `int`, which is to become shorter. -/
theorem not_bounded_max {fails : Failures} {f : OpenFile} {offset : ℕ}
    (hwrites : ∀ n, 1 ≤ n → fails n = false) (hfails : fails 0 = false)
    (hL : f.bytes.length = 2 ^ 31 - 1) (hlt : offset < f.bytes.length) :
    ¬ Bounded fails f offset := by
  intro h
  obtain ⟨r, f', fuel, s, hrun, -⟩ := h.returns
  have hsize : foundSize fails ⟨f, 0⟩ = 2 ^ 31 - 1 := by
    rw [foundSize_short hfails (by omega), hL]
    rfl
  have hbranch : entered fails offset ⟨f, 0⟩ = .overwrite :=
    entered_overwrite hsize (by omega) (by omega)
  have hpos : CInt.wrap 4 (overwriteSeek fails f offset).1 = offset := by
    rw [overwriteSeek_of_succeeds (hwrites 1 (Nat.le_refl 1)) (by omega) (by omega)]
    exact CInt.wrap_eq_self (by omega) (by omega)
  have hcalls : 2 ≤ (overwriteSeek fails f offset).2.calls := by
    rw [overwriteSeek, lseek_calls, atEnd_calls]
  have hne : CInt.wrap 4 (overwriteSeek fails f offset).1 ≠ -1 := by
    rw [hpos]
    omega
  rw [mytruncate_eq, hbranch, hsize] at hrun
  have hloop : Loop.Returns (overwriteBody fails (2 ^ 31 - 1))
      (CInt.wrap 4 (overwriteSeek fails f offset).1, (overwriteSeek fails f offset).2) (r, s) :=
    ⟨fuel, (if_neg hne).symm.trans hrun⟩
  refine not_returns_overwrite_max (fun n hn => hwrites n (by omega)) ?_ hcalls (r, s) hloop
  rw [hpos]
  omega

/-- A file that is not to become shorter. -/
theorem bounded_of_le {fails : Failures} {f : OpenFile} {offset : ℕ} (hfails : fails 0 = false)
    (hoffset : offset < 2 ^ 31) (hle : f.bytes.length ≤ offset) : Bounded fails f offset := by
  have hsize := foundSize_short hfails (hle.trans_lt hoffset)
  rcases Nat.eq_or_lt_of_le hle with heq | hlt
  · have hbranch : entered fails offset ⟨f, 0⟩ = .same :=
      entered_same hsize (by omega) (by omega)
    refine bounded_of_no_loop ?_ ?_
    · rw [hbranch]
      decide
    · rw [hbranch]
      decide
  · have hbranch : entered fails offset ⟨f, 0⟩ = .extend :=
      entered_extend hsize (by omega) (by omega)
    refine bounded_of_extend hbranch ?_ ?_
    · rw [hsize]
      omega
    · rw [hsize]
      omega

/-- A file that is to become shorter, if the second call of `lseek` fails or `size` is not the
greatest `int`. -/
theorem bounded_of_gt {fails : Failures} {f : OpenFile} {offset : ℕ} (hfails : fails 0 = false)
    (hL : f.bytes.length < 2 ^ 31) (hgt : offset < f.bytes.length)
    (h : fails 1 = true ∨ f.bytes.length < 2 ^ 31 - 1) : Bounded fails f offset := by
  have hsize := foundSize_short hfails hL
  have hbranch : entered fails offset ⟨f, 0⟩ = .overwrite :=
    entered_overwrite hsize (by omega) (by omega)
  refine bounded_of_overwrite hbranch fun hne => ?_
  cases hseek : fails 1 with
  | true =>
      rw [overwriteSeek_of_fails hseek] at hne
      exact absurd rfl hne
  | false =>
      have hshort := h.resolve_left (by simp [hseek])
      have hpos : CInt.wrap 4 (overwriteSeek fails f offset).1 = offset := by
        rw [overwriteSeek_of_succeeds hseek (by omega) (by omega)]
        exact CInt.wrap_eq_self (by omega) (by omega)
      rw [hpos, hsize]
      exact overwrite_loop fails (by omega) (by omega) _

/-- **When the loops of a call are bounded**, for a file shorter than 2 GiB none of whose writes
fails: unless the file has the greatest length that is an `int`, and is to become shorter. -/
theorem bounded_iff {fails : Failures} {f : OpenFile} {offset : ℕ} (hL : f.bytes.length < 2 ^ 31)
    (hoffset : offset < 2 ^ 31) (hwrites : ∀ n, 2 ≤ n → fails n = false) :
    Bounded fails f offset ↔
      f.bytes.length < 2 ^ 31 - 1 ∨ f.bytes.length ≤ offset ∨ fails 0 = true ∨ fails 1 = true := by
  constructor
  · intro h
    by_contra hcond
    push Not at hcond
    obtain ⟨hmax, hlt, hfails, hseek⟩ := hcond
    have hwrites' : ∀ n, 1 ≤ n → fails n = false := by
      intro n hn
      rcases Nat.eq_or_lt_of_le hn with rfl | hlt
      · exact Bool.eq_false_iff.2 hseek
      · exact hwrites n hlt
    exact not_bounded_max hwrites' (Bool.eq_false_iff.2 hfails) (by omega) hlt h
  · intro h
    cases hfails : fails 0 with
    | true =>
        have hbranch := entered_of_fails (s := ⟨f, 0⟩) hfails offset
        refine bounded_of_no_loop ?_ ?_
        · rw [hbranch]
          decide
        · rw [hbranch]
          decide
    | false =>
        rcases Nat.lt_or_ge offset f.bytes.length with hgt | hle
        · refine bounded_of_gt hfails hL hgt ?_
          rcases h with hshort | hle | hfail | hseek
          · exact .inr hshort
          · omega
          · exact absurd hfail (by simp [hfails])
          · exact .inl hseek
        · exact bounded_of_le hfails hoffset hle

/-- `hello` is to be truncated to two bytes. -/
theorem bounded_iff_hello : Bounded noFailures ⟨[104, 101, 108, 108, 111], 0⟩ (2 : ℕ) :=
  (bounded_iff (by decide) (by decide) fun _ _ => rfl).2 (.inl (by decide))

/-- **A file of 2147483647 bytes** that is to become empty. -/
theorem not_bounded_replicate : ¬ ∀ (f : OpenFile) (offset : ℕ), f.bytes.length < 2 ^ 31 →
    offset < 2 ^ 31 → Bounded noFailures f offset := by
  intro h
  have hlen : (List.replicate (2 ^ 31 - 1) (0 : UInt8)).length = 2 ^ 31 - 1 :=
    List.length_replicate
  refine not_bounded_max (f := ⟨List.replicate (2 ^ 31 - 1) 0, 0⟩) (fun _ _ => rfl) rfl hlen ?_
    (h ⟨List.replicate (2 ^ 31 - 1) 0, 0⟩ 0 ?_ (by decide))
  · rw [hlen]
    decide
  · rw [hlen]
    decide

end Truncate
