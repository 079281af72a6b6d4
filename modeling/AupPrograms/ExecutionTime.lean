/-
**Timing `getpid` and `fork`** (`assignment_6/execution_time.c`).

The program calls `getpid` and `fork` in a loop.  It reads the clock before and after each call, and
prints a line with the microseconds in between; at the end it prints two averages.  A reading of the
clock has two parts, the seconds and the microseconds within the second, and the program looks at
the second part only.  The result is right when both readings are from the same second.

The averages are computed in floating point; here they are the lists of what is added up.  The
number of iterations is a parameter, it is 10 in the code.

Main definitions:

* `ExecutionTime.Timeval` — a reading of the clock;
* `ExecutionTime.main` — the program, as the list of what it does;
* `ExecutionTime.Elapsed` — the printed values are elapsed times;
* `ExecutionTime.Within` — no second begins between two readings that belong together.

Main results:

* `ExecutionTime.elapsed_eq_iff` — when the difference of two readings is right;
* `ExecutionTime.Brackets.sum_le` — elapsed times add up to at most the time of the whole run;
* `ExecutionTime.readings_main` — the clock is read in order;
* `ExecutionTime.elapsed_iff_within` — **when the printed values are the elapsed times.**
-/

import AupPrograms.CInt
import Mathlib.Data.List.Chain

set_option relaxedAutoImplicit false
set_option autoImplicit false

namespace ExecutionTime

/-! ### The clock -/

/-- A reading of the clock. -/
structure Timeval where
  tv_sec : ℤ
  /-- The microseconds since the beginning of the second. -/
  tv_usec : ℤ
  usec_nonneg : 0 ≤ tv_usec
  usec_lt : tv_usec < 1000000
  deriving DecidableEq

/-- The reading as a number of microseconds. -/
def Timeval.micros (tv : Timeval) : ℤ := tv.tv_sec * 1000000 + tv.tv_usec

/-- The second reading comes after the first one, less than `2 ^ 31` microseconds later. -/
def Timeval.Follows (tv tv' : Timeval) : Prop :=
  tv.micros ≤ tv'.micros ∧ tv'.micros - tv.micros < 2 ^ 31

instance : DecidableRel Timeval.Follows := fun tv tv' =>
  inferInstanceAs (Decidable (tv.micros ≤ tv'.micros ∧ tv'.micros - tv.micros < 2 ^ 31))

/-- `(int)(tv.tv_usec - initial_t)` -/
def elapsed (tv tv' : Timeval) : ℤ := CInt.wrap 4 (tv'.tv_usec - tv.tv_usec)

theorem elapsed_eq (tv tv' : Timeval) : elapsed tv tv' = tv'.tv_usec - tv.tv_usec := by
  have h₀ := tv.usec_nonneg
  have h₁ := tv.usec_lt
  have h₂ := tv'.usec_nonneg
  have h₃ := tv'.usec_lt
  rw [elapsed, CInt.wrap_eq_self] <;> omega

/-- **The difference is the elapsed time exactly when both readings are from the same second.** -/
theorem elapsed_eq_iff (tv tv' : Timeval) :
    elapsed tv tv' = tv'.micros - tv.micros ↔ tv.tv_sec = tv'.tv_sec := by
  rw [elapsed_eq, Timeval.micros, Timeval.micros]
  omega

/-! ### The program -/

/-- A line of the report, with the values in it. -/
inductive Line
  | title
  | getpid (k : ℕ) (us : ℤ)
  | fork (k : ℕ) (us : ℤ)
  | getpidAvg (getpid_t : List ℤ)
  | forkAvg (fork_t : List ℤ)
  deriving DecidableEq

/-- The value of `main`. -/
inductive Exit
  | zero
  | errno
  deriving DecidableEq

/-- A call that is timed.  A call of `fork` may fail; the child of a successful one does nothing but
`exit(1)`. -/
inductive Call
  | getpid
  | fork (child : Bool)
  deriving DecidableEq

/-- What the program does. -/
inductive Act
  /-- A successful call. -/
  | gettimeofday (tv : Timeval)
  | call (c : Call)
  | printf (l : Line)
  | perror (s : String)
  | ret (e : Exit)
  deriving DecidableEq

/-- One call between two readings of the clock, and the line that is printed then.  The clock gives
the readings of a list, and the call of `gettimeofday` after the last of them fails. -/
def timed (c : Call) (line : ℤ → Line) :
    List Timeval → List Act × Option (ℤ × List Timeval)
  | [] => ([.perror "Gettimeofday failed\n", .ret .errno], none)
  | tv :: tvs =>
      if c = .fork false then
        ([.gettimeofday tv, .call c, .perror "Fork failed\n", .ret .errno], none)
      else
        match tvs with
        | [] => ([.gettimeofday tv, .call c, .perror "Gettimeofday failed\n", .ret .errno], none)
        | tv' :: tvs' =>
            ([.gettimeofday tv, .call c, .gettimeofday tv', .printf (line (elapsed tv tv'))],
              some (elapsed tv tv', tvs'))

/-- The last `n` iterations, from number `i` on, and what comes after them.  `forks i` says whether
the fork of iteration `i` succeeds. -/
def loop (forks : ℕ → Bool) : ℕ → ℕ → List Timeval → List ℤ → List ℤ → List Act
  | 0, _, _, getpid_t, fork_t =>
      [.printf (.getpidAvg getpid_t), .printf (.forkAvg fork_t), .ret .zero]
  | n + 1, i, tvs, getpid_t, fork_t =>
      match timed .getpid (.getpid (i + 1)) tvs with
      | (acts, none) => acts
      | (acts, some (us, tvs')) =>
          match timed (.fork (forks i)) (.fork (i + 1)) tvs' with
          | (acts', none) => acts ++ acts'
          | (acts', some (us', tvs'')) =>
              acts ++ (acts' ++
                loop forks n (i + 1) tvs'' (getpid_t ++ [us]) (fork_t ++ [us']))

/-- The program with `n` iterations. -/
def main (forks : ℕ → Bool) (n : ℕ) (tvs : List Timeval) : List Act :=
  .printf .title :: loop forks n 0 tvs [] []

/-! ### What is printed -/

/-- The readings of the clock that were made. -/
def readings (acts : List Act) : List Timeval :=
  acts.filterMap fun
    | .gettimeofday tv => some tv
    | _ => none

/-- The call that a line is about, and its value. -/
def Line.sample : Line → Option (Call × ℤ)
  | .getpid _ us => some (.getpid, us)
  | .fork _ us => some (.fork true, us)
  | _ => none

/-- The lines that are printed. -/
def printed (acts : List Act) : List Line :=
  acts.filterMap fun
    | .printf l => some l
    | _ => none

/-- The values printed for single calls. -/
def samples (acts : List Act) : List ℤ :=
  (printed acts).filterMap fun l => l.sample.map Prod.snd

/-- Each value is the time between the two readings that bracket the call. -/
def Brackets (acts : List Act) : Prop :=
  ∀ xs l ys c us, acts = xs ++ .printf l :: ys → l.sample = some (c, us) →
    ∃ ws tv tv', xs = ws ++ [.gettimeofday tv, .call c, .gettimeofday tv'] ∧
      us = tv'.micros - tv.micros

/-- **The printed values are elapsed times.** -/
structure Elapsed (acts : List Act) : Prop where
  brackets : Brackets acts
  nonneg : ∀ us ∈ samples acts, 0 ≤ us
  sum_le : ∀ tv tv', (readings acts).head? = some tv → (readings acts).getLast? = some tv' →
    (samples acts).sum ≤ tv'.micros - tv.micros

/-- The readings number `k` and `k + 1` are from the same second. -/
def SameSecond (tvs : List Timeval) (k : ℕ) : Prop :=
  ∀ tv tv', tvs[k]? = some tv → tvs[k + 1]? = some tv' → tv.tv_sec = tv'.tv_sec

/-- **No second begins between two readings that belong together**, in any of `n` iterations that is
reached. -/
def Within (forks : ℕ → Bool) (n : ℕ) (tvs : List Timeval) : Prop :=
  ∀ m, m < n → (∀ j, j < m → forks j = true) →
    SameSecond tvs (4 * m) ∧ (forks m = true → SameSecond tvs (4 * m + 2))

/-! ### Values that are elapsed times -/

theorem readings_append (xs ys : List Act) :
    readings (xs ++ ys) = readings xs ++ readings ys := List.filterMap_append

theorem printed_append (xs ys : List Act) :
    printed (xs ++ ys) = printed xs ++ printed ys := List.filterMap_append

theorem samples_append (xs ys : List Act) :
    samples (xs ++ ys) = samples xs ++ samples ys := by
  rw [samples, printed_append, List.filterMap_append]
  rfl

theorem mem_printed {acts : List Act} {l : Line} : l ∈ printed acts ↔ .printf l ∈ acts := by
  rw [printed, List.mem_filterMap]
  constructor
  · rintro ⟨a, ha, hl⟩
    cases a with
    | printf l' =>
        cases hl
        exact ha
    | _ => cases hl
  · intro h
    exact ⟨.printf l, h, rfl⟩

theorem mem_samples {acts : List Act} {us : ℤ} :
    us ∈ samples acts ↔ ∃ l c, .printf l ∈ acts ∧ l.sample = some (c, us) := by
  rw [samples, List.mem_filterMap]
  constructor
  · rintro ⟨l, hmem, hus⟩
    obtain ⟨⟨c, us'⟩, hl, rfl⟩ := Option.map_eq_some_iff.1 hus
    exact ⟨l, c, mem_printed.1 hmem, hl⟩
  · rintro ⟨l, c, hmem, hl⟩
    exact ⟨l, mem_printed.2 hmem, by rw [hl]; rfl⟩

/-- What is measured in a list holds in the list that continues it. -/
theorem Brackets.append {xs ys : List Act} (hx : Brackets xs) (hy : Brackets ys) :
    Brackets (xs ++ ys) := by
  intro zs l zs' c us heq hl
  obtain ⟨ws, rfl, hys⟩ | ⟨ws, hxs, hzs⟩ := List.append_eq_append_iff.1 heq
  · obtain ⟨ws', tv, tv', rfl, hus⟩ := hy ws l zs' c us hys hl
    exact ⟨xs ++ ws', tv, tv', by rw [List.append_assoc], hus⟩
  · cases ws with
    | nil =>
        rw [List.append_nil] at hxs
        obtain ⟨ws', tv, tv', hnil, -⟩ := hy [] l zs' c us hzs.symm hl
        simp at hnil
    | cons a ws =>
        obtain ⟨rfl, -⟩ := List.cons.inj hzs
        exact hx zs l ws c us hxs hl

/-- Nothing is measured where no value is printed. -/
theorem brackets_of_samples {acts : List Act} (h : samples acts = []) : Brackets acts := by
  intro xs l ys c us heq hl
  have hmem : us ∈ samples acts :=
    mem_samples.2 ⟨l, c, heq ▸ List.mem_append_right xs List.mem_cons_self, hl⟩
  rw [h] at hmem
  cases hmem

theorem samples_of_printed {acts : List Act} (h : printed acts = []) : samples acts = [] := by
  rw [samples, h]
  rfl

theorem Brackets.left {xs ys : List Act} (h : Brackets (xs ++ ys)) : Brackets xs := by
  intro zs l zs' c us heq hl
  exact h zs l (zs' ++ ys) c us (by rw [heq, List.append_assoc, List.cons_append]) hl

/-- What a bracketed call and its line add. -/
theorem bracket_of_sample {l : Line} {c : Call} {us : ℤ} (h : l.sample = some (c, us))
    (ws : List Act) (tv tv' : Timeval) :
    readings (ws ++ [.gettimeofday tv, .call c, .gettimeofday tv'] ++ [.printf l]) =
        readings ws ++ [tv] ++ [tv'] ∧
      samples (ws ++ [.gettimeofday tv, .call c, .gettimeofday tv'] ++ [.printf l]) =
        samples ws ++ [us] := by
  have hs : samples [.printf l] = [us] := by
    simp only [samples, printed, List.filterMap_cons, h, Option.map_some, List.filterMap_nil]
  rw [readings_append, readings_append, samples_append, samples_append, hs]
  refine ⟨?_, congrArg (· ++ [us]) (List.append_nil (samples ws))⟩
  rw [List.append_assoc, List.append_assoc]
  rfl

/-- The readings never go backwards. -/
def Monotone (tvs : List Timeval) : Prop := tvs.IsChain fun tv tv' => tv.micros ≤ tv'.micros

theorem Monotone.getLastD_le {tv tv' : Timeval} {tvs : List Timeval}
    (h : Monotone (tv :: (tvs ++ [tv']))) : (tvs.getLastD tv).micros ≤ tv'.micros := by
  induction tvs generalizing tv with
  | nil => exact (List.isChain_cons_cons.1 h).1
  | cons tv₁ tvs ih =>
      rw [List.getLastD_cons]
      exact ih (List.isChain_cons_cons.1 h).2

/-- **Elapsed times add up to at most the time of the whole run.** -/
theorem Brackets.sum_le {acts : List Act} (h : Brackets acts) {tv : Timeval}
    (hmono : Monotone (tv :: readings acts)) :
    (samples acts).sum ≤ ((readings acts).getLastD tv).micros - tv.micros := by
  -- A printed value takes up the two readings before it, so the list loses more than its end.
  induction hn : acts.length using Nat.strong_induction_on generalizing acts with
  | _ n ih =>
      have hcut : ∀ xs ys, acts = xs ++ ys → ys ≠ [] → Monotone (tv :: readings xs) ∧
          (samples xs).sum ≤ ((readings xs).getLastD tv).micros - tv.micros := by
        rintro xs ys rfl hys
        have hpos := List.length_pos_iff.2 hys
        rw [List.length_append] at hn
        rw [readings_append] at hmono
        have hmono' : Monotone (tv :: readings xs) := List.IsChain.left_of_append hmono
        exact ⟨hmono', ih xs.length (by omega) h.left hmono' rfl⟩
      obtain rfl | ⟨ws, a, rfl⟩ := acts.eq_nil_or_concat'
      · exact le_of_eq (sub_self tv.micros).symm
      obtain ⟨-, hws⟩ := hcut ws [a] rfl (List.cons_ne_nil a [])
      cases a with
      | gettimeofday tv' =>
          have hr : readings (ws ++ [.gettimeofday tv']) = readings ws ++ [tv'] :=
            readings_append ws _
          have hs : samples (ws ++ [.gettimeofday tv']) = samples ws := by
            rw [samples_append]
            exact List.append_nil _
          rw [hr] at hmono
          have hlast := hmono.getLastD_le
          rw [hr, hs, List.getLastD_concat]
          omega
      | printf l =>
          cases hl : l.sample with
          | none =>
              have hs : samples [.printf l] = [] := by
                simp only [samples, printed, List.filterMap_cons, hl, Option.map_none,
                  List.filterMap_nil]
              rw [samples_append, readings_append, hs, List.append_nil]
              exact (List.append_nil (readings ws)).symm ▸ hws
          | some p =>
              obtain ⟨c, us⟩ := p
              obtain ⟨ws', t, t', rfl, rfl⟩ := h ws l [] c us rfl hl
              obtain ⟨hr, hs⟩ := bracket_of_sample hl ws' t t'
              rw [hr] at hmono
              have hmono' : Monotone (tv :: (readings ws' ++ [t])) :=
                List.IsChain.left_of_append hmono
              have hlast := hmono'.getLastD_le
              rw [List.append_assoc] at hcut
              obtain ⟨-, hws'⟩ := hcut ws' _ rfl (List.cons_ne_nil _ _)
              rw [hr, hs, List.getLastD_concat, List.sum_append, List.sum_singleton]
              omega
      | _ =>
          rw [samples_append, readings_append]
          exact (List.append_nil (readings ws)).symm ▸ (List.append_nil (samples ws)).symm ▸ hws

/-- Elapsed times are not negative. -/
theorem Brackets.nonneg {acts : List Act} (h : Brackets acts) (hmono : Monotone (readings acts))
    {us : ℤ} (hus : us ∈ samples acts) : 0 ≤ us := by
  obtain ⟨l, c, hmem, hl⟩ := mem_samples.1 hus
  obtain ⟨xs, ys, rfl⟩ := List.append_of_mem hmem
  obtain ⟨ws, tv, tv', rfl, rfl⟩ := h xs l ys c us rfl hl
  rw [readings_append, readings_append, List.append_assoc] at hmono
  have hpair : Monotone (tv :: tv' :: readings ys) := List.IsChain.right_of_append hmono
  have hle : tv.micros ≤ tv'.micros := (List.isChain_cons_cons.1 hpair).1
  omega

theorem Brackets.elapsed {acts : List Act} (h : Brackets acts)
    (hmono : Monotone (readings acts)) : Elapsed acts := by
  refine ⟨h, fun us hus => h.nonneg hmono hus, fun tv tv' hhead hlast => ?_⟩
  obtain ⟨tvs, htvs⟩ : ∃ tvs, readings acts = tv :: tvs := by
    cases hr : readings acts with
    | nil =>
        rw [hr] at hhead
        cases hhead
    | cons tv₁ tvs =>
        rw [hr] at hhead
        cases hhead
        exact ⟨tvs, rfl⟩
  have hmono' : Monotone (tv :: readings acts) := by
    rw [htvs] at hmono ⊢
    exact List.isChain_cons_cons.2 ⟨le_refl _, hmono⟩
  have hsum := h.sum_le hmono'
  rwa [List.getLastD_eq_getLast?, hlast] at hsum

/-! ### What the program does -/

theorem timed_two {c : Call} (hc : c ≠ .fork false) (line : ℤ → Line) (tv tv' : Timeval)
    (tvs : List Timeval) : timed c line (tv :: tv' :: tvs) =
      ([.gettimeofday tv, .call c, .gettimeofday tv', .printf (line (elapsed tv tv'))],
        some (elapsed tv tv', tvs)) := if_neg hc

/-- One call that is timed: it ends the program and nothing is printed, or it takes up two
readings. -/
theorem timed_cases (c : Call) (line : ℤ → Line) (tvs : List Timeval) :
    (∃ acts, timed c line tvs = (acts, none) ∧ printed acts = [] ∧
      ∃ tvs', tvs = readings acts ++ tvs') ∨
    (∃ tv tv' tvs', tvs = tv :: tv' :: tvs' ∧ c ≠ .fork false ∧ timed c line tvs =
      ([.gettimeofday tv, .call c, .gettimeofday tv', .printf (line (elapsed tv tv'))],
        some (elapsed tv tv', tvs'))) := by
  cases tvs with
  | nil => exact .inl ⟨_, rfl, rfl, [], rfl⟩
  | cons tv tvs =>
      by_cases hc : c = .fork false
      · exact .inl ⟨_, if_pos hc, rfl, tvs, rfl⟩
      · cases tvs with
        | nil => exact .inl ⟨_, if_neg hc, rfl, [], rfl⟩
        | cons tv' tvs' => exact .inr ⟨tv, tv', tvs', rfl, hc, timed_two hc line tv tv' tvs'⟩

/-- The first iteration, if all its calls succeed. -/
theorem loop_four {forks : ℕ → Bool} {n i : ℕ} {getpid_t fork_t : List ℤ} (hfork : forks i = true)
    (tv₀ tv₁ tv₂ tv₃ : Timeval) (tvs : List Timeval) :
    loop forks (n + 1) i (tv₀ :: tv₁ :: tv₂ :: tv₃ :: tvs) getpid_t fork_t =
      [.gettimeofday tv₀, .call .getpid, .gettimeofday tv₁,
        .printf (.getpid (i + 1) (elapsed tv₀ tv₁))] ++
      ([.gettimeofday tv₂, .call (.fork true), .gettimeofday tv₃,
        .printf (.fork (i + 1) (elapsed tv₂ tv₃))] ++
      loop forks n (i + 1) tvs (getpid_t ++ [elapsed tv₀ tv₁]) (fork_t ++ [elapsed tv₂ tv₃])) := by
  have hg := timed_two (c := .getpid) (fun h => by cases h) (.getpid (i + 1)) tv₀ tv₁
    (tv₂ :: tv₃ :: tvs)
  have hf := timed_two (c := .fork true) (fun h => by cases h) (.fork (i + 1)) tv₂ tv₃ tvs
  simp only [loop, hg, hfork, hf]

/-- **The first iteration**: it ends the program before anything is printed, or after the line of
`getpid`, or it takes up four readings. -/
theorem loop_cases (forks : ℕ → Bool) (n i : ℕ) (tvs : List Timeval) (getpid_t fork_t : List ℤ) :
    (∃ acts, loop forks (n + 1) i tvs getpid_t fork_t = acts ∧ printed acts = [] ∧
      ∃ tvs', tvs = readings acts ++ tvs') ∨
    (∃ tv₀ tv₁ acts, loop forks (n + 1) i tvs getpid_t fork_t =
        [.gettimeofday tv₀, .call .getpid, .gettimeofday tv₁,
          .printf (.getpid (i + 1) (elapsed tv₀ tv₁))] ++ acts ∧ printed acts = [] ∧
      ∃ tvs', tvs = tv₀ :: tv₁ :: (readings acts ++ tvs')) ∨
    ∃ tv₀ tv₁ tv₂ tv₃ tvs', tvs = tv₀ :: tv₁ :: tv₂ :: tv₃ :: tvs' ∧ forks i = true := by
  obtain ⟨acts, heq, hprinted, hreadings⟩ | ⟨tv₀, tv₁, tvs', rfl, -, heq⟩ :=
    timed_cases .getpid (.getpid (i + 1)) tvs
  · exact .inl ⟨acts, by simp only [loop, heq], hprinted, hreadings⟩
  obtain ⟨acts, heq', hprinted, tvs'', rfl⟩ | ⟨tv₂, tv₃, tvs'', rfl, hc, -⟩ :=
    timed_cases (.fork (forks i)) (.fork (i + 1)) tvs'
  · exact .inr (.inl ⟨tv₀, tv₁, acts, by simp only [loop, heq, heq'], hprinted, tvs'', rfl⟩)
  · refine .inr (.inr ⟨tv₀, tv₁, tv₂, tv₃, tvs'', rfl, ?_⟩)
    cases hf : forks i with
    | true => rfl
    | false => exact absurd (congrArg Call.fork hf) hc

/-- The loop reads the clock in order. -/
theorem readings_loop (forks : ℕ → Bool) (n i : ℕ) (tvs : List Timeval) (getpid_t fork_t : List ℤ) :
    ∃ tvs', tvs = readings (loop forks n i tvs getpid_t fork_t) ++ tvs' := by
  induction n generalizing i tvs getpid_t fork_t with
  | zero => exact ⟨tvs, rfl⟩
  | succ n ih =>
      obtain ⟨acts, heq, -, hreadings⟩ | ⟨tv₀, tv₁, acts, heq, -, tvs', rfl⟩ |
        ⟨tv₀, tv₁, tv₂, tv₃, tvs, rfl, hfork⟩ := loop_cases forks n i tvs getpid_t fork_t
      · rw [heq]
        exact hreadings
      · refine ⟨tvs', ?_⟩
        rw [heq, readings_append]
        rfl
      · obtain ⟨tvs', htvs'⟩ := ih (i + 1) tvs (getpid_t ++ [elapsed tv₀ tv₁])
          (fork_t ++ [elapsed tv₂ tv₃])
        refine ⟨tvs', ?_⟩
        rw [loop_four hfork, readings_append, readings_append, List.append_assoc,
          List.append_assoc, ← htvs']
        rfl

/-- **The clock is read in order.** -/
theorem readings_main (forks : ℕ → Bool) (n : ℕ) (tvs : List Timeval) :
    ∃ tvs', tvs = readings (main forks n tvs) ++ tvs' := readings_loop forks n 0 tvs [] []

/-- A call between two readings from the same second. -/
theorem brackets_timed {c : Call} (line : ℤ → Line) {tv tv' : Timeval}
    (hline : ∀ us, (line us).sample = some (c, us)) (h : tv.tv_sec = tv'.tv_sec) :
    Brackets [.gettimeofday tv, .call c, .gettimeofday tv', .printf (line (elapsed tv tv'))] := by
  intro xs l ys c' us heq hl
  obtain ⟨rfl, rfl⟩ : xs = [.gettimeofday tv, .call c, .gettimeofday tv'] ∧
      l = line (elapsed tv tv') := by
    rcases xs with _ | ⟨_, _ | ⟨_, _ | ⟨_, _ | ⟨_, xs⟩⟩⟩⟩ <;> simp at heq
    exact ⟨by simp only [heq], heq.2.2.2.1.symm⟩
  rw [hline] at hl
  cases hl
  exact ⟨[], tv, tv', rfl, (elapsed_eq_iff tv tv').2 h⟩

theorem Within.head {forks : ℕ → Bool} {n : ℕ} {tvs : List Timeval}
    (h : Within forks (n + 1) tvs) :
    SameSecond tvs 0 ∧ (forks 0 = true → SameSecond tvs 2) :=
  h 0 (Nat.succ_pos n) fun _ hj => absurd hj (Nat.not_lt_zero _)

theorem Within.tail {forks : ℕ → Bool} {n : ℕ} {tv₀ tv₁ tv₂ tv₃ : Timeval} {tvs : List Timeval}
    (h : Within forks (n + 1) (tv₀ :: tv₁ :: tv₂ :: tv₃ :: tvs)) (h0 : forks 0 = true) :
    Within (fun j => forks (j + 1)) n tvs := by
  intro m hm hforks
  refine h (m + 1) (Nat.succ_lt_succ hm) fun j hj => ?_
  cases j with
  | zero => exact h0
  | succ j => exact hforks j (Nat.lt_of_succ_lt_succ hj)

/-- In a run in which no second begins between two readings that belong together, the values are
elapsed times. -/
theorem brackets_loop (forks : ℕ → Bool) (n i : ℕ) (tvs : List Timeval) (getpid_t fork_t : List ℤ)
    (h : Within (fun j => forks (i + j)) n tvs) :
    Brackets (loop forks n i tvs getpid_t fork_t) := by
  induction n generalizing i tvs getpid_t fork_t with
  | zero => exact brackets_of_samples rfl
  | succ n ih =>
      obtain ⟨acts, heq, hs, -⟩ | ⟨tv₀, tv₁, acts, heq, hs, tvs', rfl⟩ |
        ⟨tv₀, tv₁, tv₂, tv₃, tvs, rfl, hfork⟩ := loop_cases forks n i tvs getpid_t fork_t
      · rw [heq]
        exact brackets_of_samples (samples_of_printed hs)
      · have hg := brackets_timed (.getpid (i + 1)) (fun _ => rfl) (h.head.1 tv₀ tv₁ rfl rfl)
        rw [heq]
        exact hg.append (brackets_of_samples (samples_of_printed hs))
      · have hg := brackets_timed (.getpid (i + 1)) (fun _ => rfl) (h.head.1 tv₀ tv₁ rfl rfl)
        have hf := brackets_timed (.fork (i + 1)) (fun _ => rfl) (h.head.2 hfork tv₂ tv₃ rfl rfl)
        have hshift : (fun j => forks (i + (j + 1))) = fun j => forks (i + 1 + j) :=
          funext fun j => congrArg forks (by omega)
        have hnext := h.tail hfork
        rw [hshift] at hnext
        rw [loop_four hfork]
        exact hg.append (hf.append (ih (i + 1) tvs _ _ hnext))

/-! ### The calls of a run -/

/-- The call `c` is timed, between two readings. -/
def Times (acts : List Act) (c : Call) (tv tv' : Timeval) : Prop :=
  ∃ xs l ys, acts = xs ++ [.gettimeofday tv, .call c, .gettimeofday tv'] ++ .printf l :: ys ∧
    l.sample = some (c, elapsed tv tv')

theorem Times.append {acts : List Act} {c : Call} {tv tv' : Timeval} (h : Times acts c tv tv')
    (zs : List Act) : Times (zs ++ acts) c tv tv' := by
  obtain ⟨xs, l, ys, rfl, hl⟩ := h
  exact ⟨zs ++ xs, l, ys, by simp only [List.append_assoc], hl⟩

/-- **A value that is the elapsed time belongs to readings from the same second.** -/
theorem Times.sameSecond {acts : List Act} {c : Call} {tv tv' : Timeval} (h : Times acts c tv tv')
    (hb : Brackets acts) : tv.tv_sec = tv'.tv_sec := by
  obtain ⟨xs, l, ys, heq, hl⟩ := h
  obtain ⟨ws, t, t', hws, hus⟩ := hb _ l ys c _ heq hl
  obtain ⟨-, hpair⟩ := List.append_inj' hws rfl
  injection hpair with htv htl
  injection htl with _ htl
  injection htl with htv' _
  injection htv with htv
  injection htv' with htv'
  rw [← htv, ← htv'] at hus
  exact (elapsed_eq_iff tv tv').1 hus

/-- The first iteration, if there are two readings. -/
theorem times_getpid (forks : ℕ → Bool) (n i : ℕ) (tv₀ tv₁ : Timeval) (tvs : List Timeval)
    (getpid_t fork_t : List ℤ) :
    Times (loop forks (n + 1) i (tv₀ :: tv₁ :: tvs) getpid_t fork_t) .getpid tv₀ tv₁ := by
  have hg := timed_two (c := .getpid) (fun h => by cases h) (.getpid (i + 1)) tv₀ tv₁ tvs
  obtain ⟨acts, heq, -⟩ | ⟨tv₂, tv₃, tvs', rfl, -, heq⟩ :=
    timed_cases (.fork (forks i)) (.fork (i + 1)) tvs
  · refine ⟨[], .getpid (i + 1) (elapsed tv₀ tv₁), acts, ?_, rfl⟩
    simp only [loop, hg, heq]
    rfl
  · refine ⟨[], .getpid (i + 1) (elapsed tv₀ tv₁), ?_, ?_, rfl⟩
    · exact [.gettimeofday tv₂, .call (.fork (forks i)), .gettimeofday tv₃,
        .printf (.fork (i + 1) (elapsed tv₂ tv₃))] ++ loop forks n (i + 1) tvs'
          (getpid_t ++ [elapsed tv₀ tv₁]) (fork_t ++ [elapsed tv₂ tv₃])
    · simp only [loop, hg, heq]
      rfl

variable {forks : ℕ → Bool} {n i : ℕ} {getpid_t fork_t : List ℤ}

theorem times_fork (hfork : forks i = true) (tv₀ tv₁ tv₂ tv₃ : Timeval) (tvs : List Timeval)
    (getpid_t fork_t : List ℤ) :
    Times (loop forks (n + 1) i (tv₀ :: tv₁ :: tv₂ :: tv₃ :: tvs) getpid_t fork_t) (.fork true)
      tv₂ tv₃ := by
  rw [loop_four hfork]
  exact Times.append ⟨[], .fork (i + 1) _, _, rfl, rfl⟩ _

/-- **Successful iterations take up four readings each**, and lead to the next one. -/
theorem loop_drop {m : ℕ} {tvs : List Timeval} (getpid_t fork_t : List ℤ) (hm : m ≤ n)
    (hforks : ∀ j, j < m → forks (i + j) = true) (hlen : 4 * m ≤ tvs.length) :
    ∃ zs getpid_t' fork_t', loop forks n i tvs getpid_t fork_t =
      zs ++ loop forks (n - m) (i + m) (tvs.drop (4 * m)) getpid_t' fork_t' := by
  induction m generalizing n i tvs getpid_t fork_t with
  | zero => exact ⟨[], getpid_t, fork_t, rfl⟩
  | succ m ih =>
      obtain ⟨n, rfl⟩ : ∃ n', n = n' + 1 := Nat.exists_eq_succ_of_ne_zero (by omega)
      have hfork : forks i = true := hforks 0 (Nat.succ_pos m)
      have hforks' : ∀ j, j < m → forks (i + 1 + j) = true := by
        intro j hj
        rw [Nat.add_assoc, Nat.add_comm 1 j]
        exact hforks (j + 1) (Nat.succ_lt_succ hj)
      obtain ⟨tv₀, tv₁, tv₂, tv₃, tvs, rfl⟩ : ∃ tv₀ tv₁ tv₂ tv₃ tvs',
          tvs = tv₀ :: tv₁ :: tv₂ :: tv₃ :: tvs' := by
        rcases tvs with _ | ⟨tv₀, _ | ⟨tv₁, _ | ⟨tv₂, _ | ⟨tv₃, tvs⟩⟩⟩⟩
        · simp at hlen
        · simp at hlen
          omega
        · simp at hlen
          omega
        · simp at hlen
          omega
        · exact ⟨tv₀, tv₁, tv₂, tv₃, tvs, rfl⟩
      have hlen' : 4 * m ≤ tvs.length := by
        simp only [List.length_cons] at hlen
        omega
      obtain ⟨zs, getpid_t', fork_t', heq⟩ := ih (getpid_t ++ [elapsed tv₀ tv₁])
        (fork_t ++ [elapsed tv₂ tv₃]) (Nat.le_of_succ_le_succ hm) hforks' hlen'
      have hdrop : (tv₀ :: tv₁ :: tv₂ :: tv₃ :: tvs).drop (4 * (m + 1)) = tvs.drop (4 * m) := rfl
      rw [loop_four hfork, heq, hdrop, Nat.add_sub_add_right, Nat.add_right_comm i 1 m,
        ← List.append_assoc, ← List.append_assoc]
      exact ⟨_, getpid_t', fork_t', rfl⟩

/-- **Readings that bracket a call of an iteration that is reached are from the same second**, if
each printed value is the elapsed time. -/
theorem within_of_brackets {tvs : List Timeval} (h : Brackets (main forks n tvs)) :
    Within forks n tvs := by
  intro m hm hforks
  have hreach : 4 * m < tvs.length → ∃ zs getpid_t fork_t, main forks n tvs =
      zs ++ loop forks (n - m - 1 + 1) m (tvs.drop (4 * m)) getpid_t fork_t := by
    intro hlen
    have hforks' : ∀ j, j < m → forks (0 + j) = true := by
      intro j hj
      rw [Nat.zero_add]
      exact hforks j hj
    obtain ⟨zs, getpid_t, fork_t, heq⟩ :=
      loop_drop [] [] (Nat.le_of_lt hm) hforks' (Nat.le_of_lt hlen)
    refine ⟨.printf .title :: zs, getpid_t, fork_t, ?_⟩
    rw [Nat.sub_add_cancel (Nat.sub_pos_of_lt hm), main, heq, Nat.zero_add, List.cons_append]
  constructor
  · intro tv tv' h₀ h₁
    obtain ⟨hlen₀, rfl⟩ := List.getElem?_eq_some_iff.1 h₀
    obtain ⟨hlen₁, rfl⟩ := List.getElem?_eq_some_iff.1 h₁
    obtain ⟨zs, getpid_t, fork_t, heq⟩ := hreach hlen₀
    rw [List.drop_eq_getElem_cons hlen₀, List.drop_eq_getElem_cons hlen₁] at heq
    rw [heq] at h
    exact ((times_getpid forks _ m _ _ _ getpid_t fork_t).append zs).sameSecond h
  · intro hfork tv tv' h₂ h₃
    obtain ⟨hlen₂, rfl⟩ := List.getElem?_eq_some_iff.1 h₂
    obtain ⟨hlen₃, rfl⟩ := List.getElem?_eq_some_iff.1 h₃
    obtain ⟨zs, getpid_t, fork_t, heq⟩ := hreach (by omega)
    rw [List.drop_eq_getElem_cons (by omega), List.drop_eq_getElem_cons (by omega),
      List.drop_eq_getElem_cons hlen₂, List.drop_eq_getElem_cons hlen₃] at heq
    rw [heq] at h
    exact ((times_fork hfork _ _ _ _ _ getpid_t fork_t).append zs).sameSecond h

/-! ### When the values are right -/

/-- **When the printed values are the elapsed times**: when no second begins between the readings
that bracket a call. -/
theorem elapsed_iff_within (forks : ℕ → Bool) (n : ℕ) (tvs : List Timeval)
    (h : tvs.IsChain Timeval.Follows) : Elapsed (main forks n tvs) ↔ Within forks n tvs := by
  constructor
  · intro helapsed
    exact within_of_brackets helapsed.brackets
  · intro hwithin
    have hloop : Brackets (loop forks n 0 tvs [] []) := by
      refine brackets_loop forks n 0 tvs [] [] ?_
      simpa only [Nat.zero_add] using hwithin
    have htitle : Brackets [.printf .title] := brackets_of_samples rfl
    have hb : Brackets (main forks n tvs) := htitle.append hloop
    obtain ⟨tvs', htvs⟩ := readings_main forks n tvs
    refine hb.elapsed ?_
    rw [htvs] at h
    exact List.IsChain.imp (fun _ _ hfollows => hfollows.1) h.left_of_append

/-- A second begins, but between the two pairs of readings of the first iteration. -/
theorem elapsed_iff_within_between : Elapsed (main (fun _ => true) 10
    [⟨5, 999997, by decide, by decide⟩, ⟨5, 999999, by decide, by decide⟩,
      ⟨6, 0, by decide, by decide⟩, ⟨6, 140, by decide, by decide⟩]) := by
  refine (elapsed_iff_within _ 10 _ (by decide)).2 fun m _ _ => ?_
  cases m with
  | zero =>
      constructor
      · rintro tv tv' ⟨⟩ ⟨⟩
        rfl
      · rintro - tv tv' ⟨⟩ ⟨⟩
        rfl
  | succ m =>
      constructor
      · rintro tv tv' ⟨⟩
      · rintro - tv tv' ⟨⟩

/-- The end of a second, and then the beginning of the next one. -/
def boundary : List Timeval :=
  ⟨0, 999999, by decide, by decide⟩ :: List.replicate 39 ⟨1, 0, by decide, by decide⟩

/-- **A time that is printed is negative** when a second begins between the first two readings. -/
theorem not_elapsed_boundary :
    ¬ ∀ (forks : ℕ → Bool) (tvs : List Timeval), tvs.IsChain Timeval.Follows →
      Elapsed (main forks 10 tvs) := by
  intro h
  have hneg : -999999 ∈ samples (main (fun _ => true) 10 boundary) := by decide
  have hnonneg := (h (fun _ => true) boundary (by decide)).nonneg _ hneg
  omega

end ExecutionTime
