/-
**What `mytruncate` keeps, and which branch it takes** (`assignment_1/truncate.c`).

Any of the calls of `mytruncate` may fail, and the length of the file is any that the system allows.
The length is narrowed to an `int` before it is compared, so a long file can be taken for a shorter
one and the wrong branch be entered.  Even then no byte in front of both the old end and `offset` is
touched: the branch that extends writes behind the end of the file, and the one that overwrites
writes from `offset` on.

Main definitions:

* `Truncate.Branch`, `Truncate.entered` — the branches, and the one that a call enters;
* `Truncate.Keeps` — a file still has the first bytes of another one, and is as long;
* `Truncate.ComparesLength` — the branch that a call enters is the right one for the length.

Main results:

* `Truncate.mytruncate_eq` — a call is what its branch does;
* `Truncate.forBody_invariant` — the rule for the loops, whose writes may fail;
* `Truncate.keeps_kept_part` — **the part to be kept is not damaged**, whichever calls fail;
* `Truncate.comparesLength_iff` — **for which lengths the comparison is right.**
-/

import AupPrograms.Truncate

set_option relaxedAutoImplicit false
set_option autoImplicit false

namespace Truncate

open OpenFile

/-! ### The branches -/

/-- Where the comparisons of `mytruncate` lead to. -/
inductive Branch
  /-- `if (size == -1) return 1;` -/
  | failed
  /-- `if (size == offset) return 0;` -/
  | same
  /-- `size < offset` -/
  | extend
  /-- `size > offset` -/
  | overwrite
  deriving DecidableEq

/-- The comparisons, in their order. -/
def branch (size offset : ℤ) : Branch :=
  if size = -1 then .failed
  else if size = offset then .same
  else if size < offset then .extend
  else .overwrite

theorem branch_same {offset : ℤ} (h : 0 ≤ offset) : branch offset offset = .same := by
  rw [branch, if_neg (by omega), if_pos rfl]

theorem branch_extend {size offset : ℤ} (hne : size ≠ -1) (hlt : size < offset) :
    branch size offset = .extend := by
  rw [branch, if_neg hne, if_neg hlt.ne, if_pos hlt]

theorem branch_overwrite {size offset : ℤ} (hne : size ≠ -1) (hlt : offset < size) :
    branch size offset = .overwrite := by
  rw [branch, if_neg hne, if_neg hlt.ne', if_neg hlt.not_gt]

/-- `int size = lseek(fd, 0, SEEK_END);` -/
def foundSize (fails : Failures) (s : Sys) : ℤ := CInt.wrap 4 (lseek fails s 0 .fromEnd).1

/-- The state behind it. -/
def atEnd (fails : Failures) (s : Sys) : Sys := (lseek fails s 0 .fromEnd).2

/-- **The branch that a call enters.** -/
def entered (fails : Failures) (offset : ℤ) (s : Sys) : Branch := branch (foundSize fails s) offset

/-- The branch that extends. -/
def extending (fails : Failures) (fuel : ℕ) (offset size : ℤ) (s : Sys) : Option (ℤ × Sys) :=
  let g := lseek fails s 1 .fromEnd
  if g.1 = -1 then some (1, g.2)
  else Loop.run (extendBody fails) fuel (CInt.wrap 4 (offset - size), g.2)

/-- The branch that overwrites. -/
def overwriting (fails : Failures) (fuel : ℕ) (offset size : ℤ) (s : Sys) : Option (ℤ × Sys) :=
  let g := lseek fails s offset .set
  let pos := CInt.wrap 4 g.1
  if pos = -1 then some (1, g.2)
  else Loop.run (overwriteBody fails size) fuel (pos, g.2)

/-- **A call is what its branch does.** -/
theorem mytruncate_eq (fails : Failures) (fuel : ℕ) (offset : ℤ) (s : Sys) :
    mytruncate fails fuel offset s =
      match entered fails offset s with
      | .failed => some (1, atEnd fails s)
      | .same => some (0, atEnd fails s)
      | .extend => extending fails fuel offset (foundSize fails s) (atEnd fails s)
      | .overwrite => overwriting fails fuel offset (foundSize fails s) (atEnd fails s) := by
  unfold entered branch
  split_ifs with h₁ h₂ h₃
  · simp only [foundSize] at h₁
    simp only [mytruncate, if_pos h₁]
    rfl
  · simp only [foundSize] at h₁ h₂
    simp only [mytruncate, if_neg h₁, if_pos h₂]
    rfl
  · simp only [foundSize] at h₁ h₂ h₃
    simp only [mytruncate, if_neg h₁, if_neg h₂, if_pos h₃]
    rfl
  · simp only [foundSize] at h₁ h₂ h₃
    simp only [mytruncate, if_neg h₁, if_neg h₂, if_neg h₃]
    rfl

/-! ### What the calls do -/

/-- The first call fails. -/
theorem foundSize_of_fails {fails : Failures} {s : Sys} (h : fails s.calls = true) :
    foundSize fails s = -1 := by
  rw [foundSize, lseek, if_pos h]
  rfl

theorem entered_of_fails {fails : Failures} {s : Sys} (h : fails s.calls = true) (offset : ℤ) :
    entered fails offset s = .failed := by
  rw [entered, foundSize_of_fails h, branch, if_pos rfl]

theorem entered_same {fails : Failures} {s : Sys} {size offset : ℤ}
    (hsize : foundSize fails s = size) (hpos : 0 ≤ size) (heq : size = offset) :
    entered fails offset s = .same := by
  rw [entered, hsize, ← heq]
  exact branch_same hpos

theorem entered_extend {fails : Failures} {s : Sys} {size offset : ℤ}
    (hsize : foundSize fails s = size) (hne : size ≠ -1) (hlt : size < offset) :
    entered fails offset s = .extend := by
  rw [entered, hsize]
  exact branch_extend hne hlt

theorem entered_overwrite {fails : Failures} {s : Sys} {size offset : ℤ}
    (hsize : foundSize fails s = size) (hne : size ≠ -1) (hlt : offset < size) :
    entered fails offset s = .overwrite := by
  rw [entered, hsize]
  exact branch_overwrite hne hlt

/-- The first call finds the length, which is narrowed. -/
theorem foundSize_eq {fails : Failures} {s : Sys} (h : fails s.calls = false)
    (hL : s.file.bytes.length < 2 ^ 63) : foundSize fails s = CInt.wrap 4 s.file.bytes.length := by
  have hlseek : s.file.lseek 0 .fromEnd = some { s.file with pos := s.file.bytes.length } := by
    have hrange : 0 ≤ s.file.base .fromEnd + 0 ∧ s.file.base .fromEnd + 0 < 2 ^ 63 := by
      simp only [base]
      omega
    rw [OpenFile.lseek, if_pos hrange]
    rfl
  simp [foundSize, lseek, h, hlseek]

/-- A length in the range of an `int` is found as it is. -/
theorem foundSize_short {fails : Failures} {f : OpenFile} (h : fails 0 = false)
    (hL : f.bytes.length < 2 ^ 31) : foundSize fails ⟨f, 0⟩ = f.bytes.length := by
  rw [foundSize_eq h (show f.bytes.length < 2 ^ 63 by omega),
    CInt.wrap_eq_self (by omega) (by simp only; omega)]

/-- `lseek` fails, or moves the offset and nothing else. -/
theorem lseek_cases (fails : Failures) (s : Sys) (offset : ℤ) (whence : Whence) :
    ((lseek fails s offset whence).1 = -1 ∧ (lseek fails s offset whence).2.file = s.file) ∨
      ∃ p : ℕ, s.file.base whence + offset = p ∧ (lseek fails s offset whence).1 = p ∧
        (lseek fails s offset whence).2.file = { s.file with pos := p } := by
  unfold lseek OpenFile.lseek
  split_ifs with hfails hrange
  · exact .inl ⟨rfl, rfl⟩
  · refine .inr ⟨(s.file.base whence + offset).toNat, ?_, rfl, rfl⟩
    omega
  · exact .inl ⟨rfl, rfl⟩

/-- The contents are those that they were. -/
theorem lseek_bytes (fails : Failures) (s : Sys) (offset : ℤ) (whence : Whence) :
    (lseek fails s offset whence).2.file.bytes = s.file.bytes := by
  rcases lseek_cases fails s offset whence with ⟨-, h⟩ | ⟨p, -, -, h⟩ <;> rw [h]

theorem atEnd_bytes (fails : Failures) (s : Sys) : (atEnd fails s).file.bytes = s.file.bytes :=
  lseek_bytes fails s 0 .fromEnd

section

variable {fails : Failures} {cond : ℤ → Bool} {step : ℤ → ℤ} {x : ℤ} {s : Sys}

/-- The counter has passed its last value. -/
theorem forBody_ends (h : cond x = false) : forBody fails cond step (x, s) = .inr (0, s) := by
  simp [forBody, h]

/-- The write of an iteration fails. -/
theorem forBody_fails (h : cond x = true) (hfails : fails s.calls = true) :
    forBody fails cond step (x, s) = .inr (1, s.next s.file) := by
  simp [forBody, write, h, hfails]

/-- An iteration. -/
theorem forBody_writes (h : cond x = true) (hfails : fails s.calls = false) :
    forBody fails cond step (x, s) = .inl (CInt.wrap 4 (step x), s.next (s.file.write [0])) := by
  simp [forBody, write, h, hfails]

/-- **The rule for the loop**: it returns 0 or 1, and what holds where it starts and is kept by a
call of `write`, whether it fails or not, holds in the end. -/
theorem forBody_invariant {P : Sys → Prop} (hfail : ∀ s, P s → P (s.next s.file))
    (hwrite : ∀ s, P s → P (s.next (s.file.write [0]))) (hs : P s) {r : ℤ × Sys}
    (h : Loop.Returns (forBody fails cond step) (x, s) r) : (r.1 = 0 ∨ r.1 = 1) ∧ P r.2 := by
  refine h.of_invariant (I := fun y => P y.2) (R := fun r => (r.1 = 0 ∨ r.1 = 1) ∧ P r.2) ?_ ?_ hs
  · rintro ⟨x, s⟩ y hs hy
    cases hcond : cond x with
    | false =>
        rw [forBody_ends hcond] at hy
        cases hy
    | true =>
        cases hfails : fails s.calls with
        | true =>
            rw [forBody_fails hcond hfails] at hy
            cases hy
        | false =>
            rw [forBody_writes hcond hfails] at hy
            obtain rfl := Sum.inl.inj hy
            exact hwrite s hs
  · rintro ⟨x, s⟩ r hs hr
    cases hcond : cond x with
    | false =>
        rw [forBody_ends hcond] at hr
        obtain rfl := Sum.inr.inj hr
        exact ⟨.inl rfl, hs⟩
    | true =>
        cases hfails : fails s.calls with
        | true =>
            rw [forBody_fails hcond hfails] at hr
            obtain rfl := Sum.inr.inj hr
            exact ⟨.inr rfl, hfail s hs⟩
        | false =>
            rw [forBody_writes hcond hfails] at hr
            cases hr

end

/-! ### What is kept -/

/-- `g` is not shorter than `f`, and has the same bytes at the positions below `k`. -/
structure Keeps (f : OpenFile) (k : ℤ) (g : OpenFile) : Prop where
  below : ∀ i : ℕ, (i : ℤ) < k → g.bytes[i]? = f.bytes[i]?
  length : f.bytes.length ≤ g.bytes.length

/-- Where only the offset has moved, everything is kept. -/
theorem Keeps.of_bytes {f g : OpenFile} (h : g.bytes = f.bytes) (k : ℤ) : Keeps f k g where
  below i _ := by rw [h]
  length := by rw [h]

/-- A write behind position `k` keeps what is below. -/
theorem Keeps.write {f g : OpenFile} {k : ℤ} (h : Keeps f k g) (hlen : k ≤ f.bytes.length)
    (hpos : k ≤ g.pos) (bs : List UInt8) : Keeps f k (g.write bs) where
  below i hi := by
    have hbefore : i < g.pos := by omega
    have hinside : i < g.bytes.length := by
      have hle := h.length
      omega
    rw [getElem?_write_of_lt bs hbefore hinside, h.below i hi]
  length := h.length.trans (length_le_write g bs)

/-- The loop returns 0 or 1, and keeps what is below the position where it starts. -/
theorem Keeps.forBody {fails : Failures} {cond : ℤ → Bool} {step : ℤ → ℤ} {f : OpenFile} {k : ℤ}
    (hlen : k ≤ f.bytes.length) {x : ℤ} {s : Sys} (hs : Keeps f k s.file) (hpos : k ≤ s.file.pos)
    {r : ℤ × Sys} (h : Loop.Returns (forBody fails cond step) (x, s) r) :
    (r.1 = 0 ∨ r.1 = 1) ∧ Keeps f k r.2.file := by
  -- each iteration moves the offset on, so the next write is behind `k` again
  have hinv := forBody_invariant (P := fun s => Keeps f k s.file ∧ k ≤ s.file.pos)
    (fun s hs => hs) (fun s hs => ⟨hs.1.write hlen hs.2 [0], hs.2.trans (by simp)⟩) ⟨hs, hpos⟩ h
  exact ⟨hinv.1, hinv.2.1⟩

/-- The branch that extends starts behind the end of the file. -/
theorem Keeps.extending {fails : Failures} {fuel : ℕ} {offset size : ℤ} {f : OpenFile} {s : Sys}
    {k : ℤ} (hs : s.file.bytes = f.bytes) (hlen : k ≤ f.bytes.length) {r : ℤ × Sys}
    (h : extending fails fuel offset size s = some r) :
    (r.1 = 0 ∨ r.1 = 1) ∧ Keeps f k r.2.file := by
  have hkeeps : Keeps f k (lseek fails s 1 .fromEnd).2.file :=
    .of_bytes ((lseek_bytes fails s 1 .fromEnd).trans hs) k
  unfold Truncate.extending at h
  dsimp only at h
  split_ifs at h with hfailed
  · obtain rfl := Option.some_inj.1 h
    exact ⟨.inr rfl, hkeeps⟩
  · refine Keeps.forBody hlen hkeeps ?_ ⟨fuel, h⟩
    rcases lseek_cases fails s 1 .fromEnd with ⟨hret, -⟩ | ⟨p, hp, -, hfile⟩
    · exact absurd hret hfailed
    · have hend : s.file.base .fromEnd = f.bytes.length := by rw [base, hs]
      rw [hfile]
      simp only
      omega

/-- The branch that overwrites starts at `offset`. -/
theorem Keeps.overwriting {fails : Failures} {fuel : ℕ} {offset size : ℤ} {f : OpenFile} {s : Sys}
    {k : ℤ} (hs : s.file.bytes = f.bytes) (hlen : k ≤ f.bytes.length) (hk : k ≤ offset)
    {r : ℤ × Sys} (h : overwriting fails fuel offset size s = some r) :
    (r.1 = 0 ∨ r.1 = 1) ∧ Keeps f k r.2.file := by
  have hkeeps : Keeps f k (lseek fails s offset .set).2.file :=
    .of_bytes ((lseek_bytes fails s offset .set).trans hs) k
  unfold Truncate.overwriting at h
  dsimp only at h
  split_ifs at h with hfailed
  · obtain rfl := Option.some_inj.1 h
    exact ⟨.inr rfl, hkeeps⟩
  · refine Keeps.forBody hlen hkeeps ?_ ⟨fuel, h⟩
    rcases lseek_cases fails s offset .set with ⟨hret, -⟩ | ⟨p, hp, -, hfile⟩
    · exact absurd (by rw [hret]; rfl) hfailed
    · rw [hfile]
      simp only [base] at hp ⊢
      omega

/-- A negative `offset` is refused by the second call of `lseek`. -/
theorem truncates_negative (fails : Failures) {f : OpenFile} {offset : ℤ} (hneg : offset < 0)
    (hL : f.bytes.length < 2 ^ 31) : ∃ f', Truncates fails f offset 1 f' ∧ f'.bytes = f.bytes := by
  have hend : (atEnd fails ⟨f, 0⟩).file.bytes = f.bytes := atEnd_bytes fails ⟨f, 0⟩
  cases hfails : fails 0 with
  | true =>
      have hbranch := entered_of_fails (s := ⟨f, 0⟩) hfails offset
      refine ⟨_, ⟨0, atEnd fails ⟨f, 0⟩, ?_, rfl⟩, hend⟩
      rw [mytruncate_eq, hbranch]
  | false =>
      have hsize := foundSize_short hfails hL
      have hbranch : entered fails offset ⟨f, 0⟩ = .overwrite :=
        entered_overwrite hsize (by omega) (by omega)
      have hrefused : (lseek fails (atEnd fails ⟨f, 0⟩) offset .set).1 = -1 := by
        rcases lseek_cases fails (atEnd fails ⟨f, 0⟩) offset .set with ⟨h, -⟩ | ⟨p, hp, -, -⟩
        · exact h
        · simp only [base] at hp
          omega
      refine ⟨_, ⟨0, (lseek fails (atEnd fails ⟨f, 0⟩) offset .set).2, ?_, rfl⟩,
        (lseek_bytes fails _ offset .set).trans hend⟩
      rw [mytruncate_eq, hbranch]
      simp only [overwriting, hrefused]
      rfl

/-- **`mytruncate` does not damage the part that is to be kept**, whichever of its calls fail and
however long the file is; and with a negative `offset` it leaves a file shorter than 2 GiB as it
is. -/
theorem keeps_kept_part (fails : Failures) (f : OpenFile) (offset : ℤ) :
    (∀ r f', Truncates fails f offset r f' →
      (r = 0 ∨ r = 1) ∧ Keeps f (min f.bytes.length offset) f') ∧
    (offset < 0 → f.bytes.length < 2 ^ 31 →
      ∃ f', Truncates fails f offset 1 f' ∧ f'.bytes = f.bytes) := by
  refine ⟨?_, truncates_negative fails⟩
  rintro r f' ⟨fuel, s, hrun, rfl⟩
  have hend : (atEnd fails ⟨f, 0⟩).file.bytes = f.bytes := atEnd_bytes fails ⟨f, 0⟩
  have hlen : min (f.bytes.length : ℤ) offset ≤ f.bytes.length := min_le_left _ _
  rw [mytruncate_eq] at hrun
  cases hbranch : entered fails offset ⟨f, 0⟩ with
  | failed =>
      rw [hbranch] at hrun
      cases hrun
      exact ⟨.inr rfl, .of_bytes hend _⟩
  | same =>
      rw [hbranch] at hrun
      cases hrun
      exact ⟨.inl rfl, .of_bytes hend _⟩
  | extend =>
      rw [hbranch] at hrun
      exact Keeps.extending hend hlen hrun
  | overwrite =>
      rw [hbranch] at hrun
      exact Keeps.overwriting hend hlen (min_le_right _ _) hrun

/-- `hello` is to be truncated to two bytes, and the second `write` fails. -/
theorem keeps_kept_part_hello :
    ∃ f', Truncates (fun n => n == 3) ⟨[104, 101, 108, 108, 111], 0⟩ 2 1 f' ∧
      Keeps ⟨[104, 101, 108, 108, 111], 0⟩ 2 f' := by
  have hcall : Truncates (fun n => n == 3) ⟨[104, 101, 108, 108, 111], 0⟩ 2 1
      ⟨[104, 101, 0, 108, 111], 3⟩ := ⟨2, ⟨⟨[104, 101, 0, 108, 111], 3⟩, 4⟩, rfl, rfl⟩
  exact ⟨_, hcall, ((keeps_kept_part _ _ 2).1 _ _ hcall).2⟩

/-! ### The length that is compared -/

/-- The lower half of the values modulo `2 ^ 32`. -/
theorem wrap_low {x : ℤ} (h : x % 2 ^ 32 < 2 ^ 31) : CInt.wrap 4 x = x % 2 ^ 32 :=
  Int.bmod_eq_emod_of_lt h

/-- The upper half of the values modulo `2 ^ 32`. -/
theorem wrap_high {x : ℤ} (h : 2 ^ 31 ≤ x % 2 ^ 32) : CInt.wrap 4 x = x % 2 ^ 32 - 2 ^ 32 :=
  Int.bmod_neg x _ h

@[simp] theorem lseek_calls (fails : Failures) (s : Sys) (offset : ℤ) (whence : Whence) :
    (lseek fails s offset whence).2.calls = s.calls + 1 := by
  unfold lseek
  split
  · rfl
  · split <;> rfl

theorem atEnd_calls (fails : Failures) (f : OpenFile) : (atEnd fails ⟨f, 0⟩).calls = 1 :=
  lseek_calls fails ⟨f, 0⟩ 0 .fromEnd

/-- Calls are made, none is taken back. -/
theorem calls_le_of_forBody {fails : Failures} {cond : ℤ → Bool} {step : ℤ → ℤ} {x : ℤ} {s : Sys}
    {n : ℕ} (hs : n ≤ s.calls) {r : ℤ × Sys}
    (h : Loop.Returns (forBody fails cond step) (x, s) r) : n ≤ r.2.calls := by
  have hnext : ∀ (s : Sys) (f : OpenFile), n ≤ s.calls → n ≤ (s.next f).calls :=
    fun _ _ hs => Nat.le_succ_of_le hs
  exact (forBody_invariant (P := fun s => n ≤ s.calls) (fun s => hnext s _) (fun s => hnext s _)
    hs h).2

/-- A loop whose condition holds at the start calls `write`. -/
theorem calls_lt_of_forBody {fails : Failures} {cond : ℤ → Bool} {step : ℤ → ℤ} {x : ℤ} {s : Sys}
    (hcond : cond x = true) {r : ℤ × Sys} (h : Loop.Returns (forBody fails cond step) (x, s) r) :
    s.calls < r.2.calls := by
  cases hfails : fails s.calls with
  | true =>
      obtain rfl := (Loop.returns_of_leaves (forBody_fails hcond hfails)).1 h
      exact Nat.lt_succ_self _
  | false =>
      rw [Loop.returns_of_goesOn (forBody_writes hcond hfails)] at h
      exact calls_le_of_forBody (Nat.le_refl (s.calls + 1)) h

/-- The branch that extends calls `write` before it returns 0, if the difference of the lengths is
positive as an `int`. -/
theorem calls_of_extending {fails : Failures} {fuel : ℕ} {offset size : ℤ} {s s' : Sys}
    (hdiff : 0 < CInt.wrap 4 (offset - size))
    (h : extending fails fuel offset size s = some (0, s')) :
    s.calls + 1 < s'.calls := by
  unfold extending at h
  dsimp only at h
  split_ifs at h
  · cases h
  · have hlt := calls_lt_of_forBody (by simpa using hdiff) (⟨fuel, h⟩ : Loop.Returns _ _ _)
    simpa using hlt

/-- The branch that overwrites calls `write` before it returns 0, if `offset` is not behind the
end. -/
theorem calls_of_overwriting {fails : Failures} {fuel : ℕ} {offset size : ℤ} {s s' : Sys}
    (hle : CInt.wrap 4 offset ≤ size) (h : overwriting fails fuel offset size s = some (0, s')) :
    s.calls + 1 < s'.calls := by
  unfold overwriting at h
  dsimp only at h
  split_ifs at h with hfailed
  · cases h
  · have hpos : (lseek fails s offset .set).1 = offset := by
      rcases lseek_cases fails s offset .set with ⟨hret, -⟩ | ⟨p, hp, hret, -⟩
      · exact absurd (by rw [hret]; rfl) hfailed
      · rw [hret, ← hp, base, Int.zero_add]
    rw [hpos] at h
    have hlt := calls_lt_of_forBody (by simpa using hle) (⟨fuel, h⟩ : Loop.Returns _ _ _)
    simpa using hlt

/-- **The branch that a call enters is the right one for the length of the file.** -/
structure ComparesLength (fails : Failures) (f : OpenFile) (offset : ℤ) : Prop where
  /-- A call that returns 0 after its calls of `lseek`, of which there are at most two. -/
  same : ∀ fuel s, mytruncate fails fuel offset ⟨f, 0⟩ = some (0, s) → s.calls ≤ 2 →
    f.bytes.length = offset
  extend : entered fails offset ⟨f, 0⟩ = .extend → f.bytes.length < offset
  overwrite : entered fails offset ⟨f, 0⟩ = .overwrite → offset < f.bytes.length

/-- A call that fails at once enters none of the branches. -/
theorem comparesLength_of_failed {fails : Failures} {f : OpenFile} {offset : ℤ}
    (h : entered fails offset ⟨f, 0⟩ = .failed) : ComparesLength fails f offset where
  same fuel s hrun _ := by
    rw [mytruncate_eq, h] at hrun
    cases hrun
  extend hextend := by
    rw [h] at hextend
    cases hextend
  overwrite hoverwrite := by
    rw [h] at hoverwrite
    cases hoverwrite

/-- The length is found to be greater than `offset`, and it is. -/
theorem comparesLength_of_overwrite {fails : Failures} {f : OpenFile} {offset : ℕ}
    (hoffset : offset < 2 ^ 31) (hsize : offset < foundSize fails ⟨f, 0⟩)
    (hL : offset < f.bytes.length) : ComparesLength fails f offset := by
  have hbranch : entered fails offset ⟨f, 0⟩ = .overwrite :=
    branch_overwrite (by omega) hsize
  have hwrap : CInt.wrap 4 offset = offset := CInt.wrap_eq_self (by omega) (by omega)
  refine ⟨fun fuel s hrun hcalls => ?_, fun hextend => ?_, fun _ => by exact_mod_cast hL⟩
  · rw [mytruncate_eq, hbranch] at hrun
    have hwrites := calls_of_overwriting (by rw [hwrap]; exact hsize.le) hrun
    have hend := atEnd_calls fails f
    omega
  · rw [hbranch] at hextend
    cases hextend

/-- A file shorter than 2 GiB. -/
theorem comparesLength_of_short {fails : Failures} {f : OpenFile} {offset : ℕ}
    (hoffset : offset < 2 ^ 31) (hfails : fails 0 = false) (hL : f.bytes.length < 2 ^ 31) :
    ComparesLength fails f offset := by
  have hsize := foundSize_short hfails hL
  rcases lt_trichotomy f.bytes.length offset with hlt | heq | hgt
  · have hbranch : entered fails offset ⟨f, 0⟩ = .extend :=
      entered_extend hsize (by omega) (by omega)
    have hwrap : CInt.wrap 4 (offset - f.bytes.length) = offset - f.bytes.length :=
      CInt.wrap_eq_self (by omega) (by omega)
    refine ⟨fun fuel s hrun hcalls => ?_, fun _ => by exact_mod_cast hlt, fun hoverwrite => ?_⟩
    · rw [mytruncate_eq, hbranch, hsize] at hrun
      have hwrites := calls_of_extending (by rw [hwrap]; omega) hrun
      have hend := atEnd_calls fails f
      omega
    · rw [hbranch] at hoverwrite
      cases hoverwrite
  · have hbranch : entered fails offset ⟨f, 0⟩ = .same :=
      entered_same hsize (by omega) (by omega)
    refine ⟨fun _ _ _ _ => by exact_mod_cast heq, fun hextend => ?_, fun hoverwrite => ?_⟩
    · rw [hbranch] at hextend
      cases hextend
    · rw [hbranch] at hoverwrite
      cases hoverwrite
  · exact comparesLength_of_overwrite hoffset (by omega) hgt

/-- A file of 2 GiB or more whose length is not found as one that is greater than `offset`. -/
theorem not_comparesLength {fails : Failures} {f : OpenFile} {offset : ℕ}
    (hfails : fails 0 = false) (hlong : 2 ^ 31 ≤ f.bytes.length) (hL : f.bytes.length < 2 ^ 63)
    (hoffset : offset < 2 ^ 31) (hfailed : f.bytes.length % 2 ^ 32 ≠ 2 ^ 32 - 1)
    (hgreater : ¬ (offset < f.bytes.length % 2 ^ 32 ∧ f.bytes.length % 2 ^ 32 < 2 ^ 31)) :
    ¬ ComparesLength fails f offset := by
  intro h
  have hsize := foundSize_eq (s := ⟨f, 0⟩) hfails hL
  rcases Nat.lt_or_ge (f.bytes.length % 2 ^ 32) (2 ^ 31) with hlow | hhigh
  · rw [wrap_low (by simp only; omega)] at hsize
    rcases Nat.eq_or_lt_of_le (by omega : f.bytes.length % 2 ^ 32 ≤ offset) with heq | hlt
    · have hbranch : entered fails offset ⟨f, 0⟩ = .same :=
        entered_same hsize (by simp only; omega) (by simp only; omega)
      have hrun : mytruncate fails 0 offset ⟨f, 0⟩ = some (0, atEnd fails ⟨f, 0⟩) := by
        rw [mytruncate_eq, hbranch]
      have hend := atEnd_calls fails f
      have hlen := h.same 0 _ hrun (by omega)
      omega
    · have hbranch : entered fails offset ⟨f, 0⟩ = .extend :=
        entered_extend hsize (by simp only; omega) (by simp only; omega)
      have hlen := h.extend hbranch
      omega
  · rw [wrap_high (by simp only; omega)] at hsize
    have hbranch : entered fails offset ⟨f, 0⟩ = .extend :=
      entered_extend hsize (by simp only; omega) (by simp only; omega)
    have hlen := h.extend hbranch
    omega

/-- **For which lengths the comparison is right**: if the first call fails, if the length is in the
range of an `int`, if it is found as -1, or if it is found as a length that is still greater than
`offset`. -/
theorem comparesLength_iff {fails : Failures} {f : OpenFile} {offset : ℕ}
    (hL : f.bytes.length < 2 ^ 63) (hoffset : offset < 2 ^ 31) :
    ComparesLength fails f offset ↔
      fails 0 = true ∨ f.bytes.length < 2 ^ 31 ∨ f.bytes.length % 2 ^ 32 = 2 ^ 32 - 1 ∨
        (offset < f.bytes.length % 2 ^ 32 ∧ f.bytes.length % 2 ^ 32 < 2 ^ 31) := by
  cases hfails : fails 0 with
  | true =>
      exact iff_of_true (comparesLength_of_failed (entered_of_fails hfails _)) (.inl rfl)
  | false =>
      have hsize := foundSize_eq (s := ⟨f, 0⟩) hfails hL
      constructor
      · intro h
        by_contra hcond
        push Not at hcond
        obtain ⟨-, hlong, hfailed, hgreater⟩ := hcond
        exact not_comparesLength hfails hlong hL hoffset hfailed
          (fun hgt => absurd hgt.2 (by have := hgreater hgt.1; omega)) h
      · rintro (h | hshort | hfailed | ⟨hgreater, hlow⟩)
        · cases h
        · exact comparesLength_of_short hoffset hfails hshort
        · rw [wrap_high (by simp only; omega)] at hsize
          have hbranch : entered fails offset ⟨f, 0⟩ = .failed := by
            rw [entered, hsize, branch, if_pos (by simp only; omega)]
          exact comparesLength_of_failed hbranch
        · rw [wrap_low (by simp only; omega)] at hsize
          exact comparesLength_of_overwrite hoffset (by rw [hsize]; simp only; omega) (by omega)

/-- The comparison is right for `hello`. -/
theorem comparesLength_iff_hello :
    ComparesLength noFailures ⟨[104, 101, 108, 108, 111], 0⟩ (2 : ℕ) :=
  (comparesLength_iff (by decide) (by decide)).2 (.inr (.inl (by decide)))

/-- A file of 4 GiB is taken for an empty one. -/
theorem not_comparesLength_replicate :
    ¬ ComparesLength noFailures ⟨List.replicate (2 ^ 32) 0, 0⟩ (0 : ℕ) := by
  refine not_comparesLength rfl ?_ ?_ (by decide) ?_ ?_ <;> rw [List.length_replicate] <;> decide

end Truncate
