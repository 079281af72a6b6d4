/-
**When the spinning buffer never locks up** (`mutex_lock_unlock.c`).

A thread may spin for ever if the other one is never scheduled, so nothing bounds the number of its
steps.  But reading the counter in vain changes nothing, and the steps that change something are
bounded by the loops.  If no more is read than written, and no more is left than the array can hold,
there always is such a step as long as a thread has not exited: were all of them spinning or gone,
the counter could not be the balance of what they have done.  The numbers of threads are those with
which the accesses stay within the array.

Main definitions:

* `SpinBuffer.weight` — what a thread at a location can still pay for;
* `SpinBuffer.Joined` — every thread has exited and the counter says what is left;
* `SpinBuffer.Matched` — all that is read is written, and what is left fits the array.

Main results:

* `SpinBuffer.ranked`, `SpinBuffer.actPaysOrIdles` — a step pays, or is a test in vain;
* `SpinBuffer.spins_or_exits` — where every step is in vain, each thread spins or has exited;
* `SpinBuffer.spinning_ends` — **apart from tests in vain every run is bounded, and it can end if
  and only if the numbers match**.
-/

import AupPrograms.PthreadRank
import AupPrograms.SpinBufferRange

set_option relaxedAutoImplicit false
set_option autoImplicit false

namespace SpinBuffer

open Pthread BoundedBuffer

variable {P C : Type}

/-! ### The weights -/

/-- What a thread at a location can still pay for, its tests in vain apart: six steps for each
iteration left. -/
def weight (N : ℕ) (_ : P ⊕ C) : Loc → ℕ
  | ⟨.head, i⟩ => 6 * (N - i) + 1
  | ⟨.spin, i⟩ => 6 * (N - (i + 1)) + 6
  | ⟨.lock, i⟩ => 6 * (N - (i + 1)) + 5
  | ⟨.slot, i⟩ => 6 * (N - (i + 1)) + 4
  | ⟨.adjust, i⟩ => 6 * (N - (i + 1)) + 3
  | ⟨.unlock, i⟩ => 6 * (N - (i + 1)) + 2
  | ⟨.exit, _⟩ => 0

theorem ranked (MAX N : ℕ) : Ranked (code (P := P) (C := C) MAX N) 0 (weight N) := by
  constructor
  all_goals
    rintro t ⟨pc, i⟩
    rw [code_eq]
    cases pc <;> simp [worker, weight]

theorem actPaysOrIdles (MAX N : ℕ) (s : St P C) :
    ActPaysOrIdles (code MAX N) (weight N) (fun _ => 0) s := by
  rintro t ⟨pc, i⟩ f e k - hc
  rw [code_eq] at hc
  cases pc <;> simp only [worker, reduceCtorEq, Instr.act.injEq] at hc
  · obtain ⟨rfl, rfl, rfl⟩ := hc
    refine Or.inl ?_
    by_cases hi : i < N
    · simp only [hi, if_true, weight]
      omega
    · simp only [hi, if_false, weight]
      omega
  · -- a test in vain changes nothing
    obtain ⟨rfl, rfl, rfl⟩ := hc
    cases hb : (side MAX t).blocked s.mem
    · exact Or.inl (by simp [hb, weight])
    · exact Or.inr ⟨rfl, by simp [hb]⟩
  · obtain ⟨rfl, rfl, rfl⟩ := hc
    exact Or.inl (by simp [weight])
  · obtain ⟨rfl, rfl, rfl⟩ := hc
    exact Or.inl (by simp [weight])

variable [DecidableEq P] [DecidableEq C]

/-- Without a condition variable nobody wakes up for no reason. -/
theorem countP_isSpurious {MAX N : ℕ} {as : List (Action (P ⊕ C) (Event (Token P)))} {s : St P C}
    (h : (system P C MAX N).Exec as s) : as.countP Action.isSpurious = 0 := by
  rw [List.countP_eq_zero]
  refine Lts.Exec.forall_labels (fun as s a s' hr hs => ?_) h
  cases hs with
  | @spurious t l c m hs => exact c.elim
  | _ => simp [Action.isSpurious]

/-! ### Where every step is in vain -/

/-- Thread `t` has exited. -/
def Exited (s : St P C) (t : P ⊕ C) : Prop := ∃ i, s.status t = .run ⟨.exit, i⟩

/-- Thread `t` spins, and its test is in vain. -/
def Spins (MAX : ℕ) (s : St P C) (t : P ⊕ C) : Prop :=
  ∃ i, s.status t = .run ⟨.spin, i⟩ ∧ (side MAX t).blocked s.mem = true

omit [DecidableEq P] [DecidableEq C] in
/-- A thread that has moved has changed the state. -/
theorem ne_of_status {s s' : St P C} {t : P ⊕ C} {l k : Loc} (hs : s.status t = .run l)
    (hs' : s'.status t = .run k) (hl : l ≠ k) : s ≠ s' := by
  rintro rfl
  exact hl (Status.run.inj (hs.symm.trans hs'))

/-- **Where every step is in vain, each thread spins or has exited.** -/
theorem spins_or_exits {MAX N : ℕ} {as : List (Action (P ⊕ C) (Event (Token P)))} {s : St P C}
    (h : (system P C MAX N).Exec as s) (hend : (system P C MAX N).active.Terminal s) (t : P ⊕ C) :
    Spins MAX s t ∨ Exited s t := by
  have ho := lockOwned h
  -- a move to another program point changes the state, so none is possible
  have hno : ∀ {u : P ⊕ C} {l : Loc} (k : Loc) {s' : St P C} {e : Option (Event (Token P))},
      s.status u = .run l → Move MAX N s e s' → s'.status u = .run k → l = k := by
    intro u l k s' e hu hm hu'
    by_contra hne
    obtain ⟨a, hstep, -⟩ := step_of_move hm
    exact hend a s' ⟨hstep, ne_of_status hu hu' hne⟩
  have hunlocked : ∀ u l, s.status u = .run l → ¬ l.Locked := by
    rintro u ⟨pc, i⟩ hu hl
    have hown : s.owner () = some u := (ho.owner () u).2 (by rw [hu]; exact hl)
    cases pc with
    | slot => simpa using hno (⟨.adjust, i⟩) hu (Move.slot hu) (by simp)
    | adjust => simpa using hno (⟨.unlock, i⟩) hu (Move.adjust hu) (by simp)
    | unlock => simpa using hno (⟨.head, i + 1⟩) hu (Move.unlock hu hown) (by simp)
    | _ => exact hl
  have hfree : s.owner () = none := by
    refine Option.eq_none_iff_forall_ne_some.2 fun u hu => ?_
    obtain ⟨l, hl, -⟩ := fits h u
    have hheld := (ho.owner () u).1 hu
    rw [hl] at hheld
    exact hunlocked u l hl hheld
  obtain ⟨⟨pc, i⟩, ht, -⟩ := fits h t
  cases pc with
  | exit => exact Or.inr ⟨i, ht⟩
  | spin =>
      refine Or.inl ⟨i, ht, ?_⟩
      by_contra hb
      have hclear : (side MAX t).blocked s.mem = false := by simpa using hb
      simpa using hno (⟨.lock, i⟩) ht (Move.clear ht hclear) (by simp)
  | head =>
      exfalso
      by_cases hi : i < N
      · simpa using hno (⟨.spin, i⟩) ht (Move.enter ht hi) (by simp)
      · simpa using hno (⟨.exit, i⟩) ht (Move.leave ht hi) (by simp)
  | lock => simpa using hno (⟨.slot, i⟩) ht (Move.lock ht hfree) (by simp)
  | slot | adjust | unlock => exact absurd trivial (hunlocked t _ ht)

/-- A step that changes nothing is no access. -/
theorem event_of_idle {MAX N : ℕ} {as : List (Action (P ⊕ C) (Event (Token P)))} {s : St P C}
    {a : Action (P ⊕ C) (Event (Token P))} (h : (system P C MAX N).Exec as s)
    (hs : (system P C MAX N).step s a s) : a.event = none := by
  cases he : a.event with
  | none => rfl
  | some e =>
      obtain ⟨t, i, ht, -, heq⟩ := (move_of_step (fits h).running hs).visible he
      have hafter : s.status t = .run ⟨.adjust, i⟩ := by rw [heq]; simp
      exact absurd rfl (ne_of_status ht hafter (by simp))

/-! ### Every run stops where it should -/

variable [Fintype P] [Fintype C]

/-- **The joined state**: every thread has exited, and the counter is what has been written less
what has been read. -/
structure Joined (N : ℕ) (s : St P C) : Prop where
  exited : ∀ t, Exited s t
  left : s.mem.count = (Fintype.card P * N : ℤ) - Fintype.card C * N

/-- All that is to be read is written, and what is left over fits the array. -/
def Matched (P C : Type) [Fintype P] [Fintype C] (MAX N : ℕ) : Prop :=
  Fintype.card C * N ≤ Fintype.card P * N ∧ Fintype.card P * N ≤ Fintype.card C * N + MAX

omit [DecidableEq P] [DecidableEq C] [Fintype P] [Fintype C] in
theorem counted_of_exited {N : ℕ} {s : St P C} (h : Fits N s) {t : P ⊕ C} (ht : Exited s t) :
    (s.status t).loc.counted = N := by
  obtain ⟨i, hi⟩ := ht
  have hr := h.at hi
  rw [hi]
  exact hr

omit [DecidableEq P] [DecidableEq C] [Fintype P] [Fintype C] in
theorem counted_of_spins {MAX N : ℕ} {s : St P C} (h : Fits N s) {t : P ⊕ C}
    (ht : Spins MAX s t) : (s.status t).loc.counted < N := by
  obtain ⟨i, hi, -⟩ := ht
  have hr := h.at hi
  rw [hi]
  exact hr

/-- As long as a thread spins, some thread does not spin in vain. -/
theorem not_spins {MAX N : ℕ} (hMAX : 1 ≤ MAX) (hmatched : Matched P C MAX N)
    {as : List (Action (P ⊕ C) (Event (Token P)))} {s : St P C}
    (h : (system P C MAX N).Exec as s) (hall : ∀ t, Spins MAX s t ∨ Exited s t) (t : P ⊕ C) :
    ¬ Spins MAX s t := by
  intro ht
  have hf := fits h
  have hb := balanced_sides h
  have hle : ∀ u, ((s.status u).loc.counted : ℤ) ≤ N := fun u => by
    exact_mod_cast counted_le hf u
  have hlt : ((s.status t).loc.counted : ℤ) < N := by exact_mod_cast counted_of_spins hf ht
  have hread : (Fintype.card C : ℤ) * N ≤ Fintype.card P * N := by exact_mod_cast hmatched.1
  have hkept : (Fintype.card P : ℤ) * N ≤ Fintype.card C * N + MAX := by
    exact_mod_cast hmatched.2
  -- the test of the other side would succeed, so that side is through with its iterations
  have hfinished : ∀ u, u.isLeft ≠ t.isLeft → ((s.status u).loc.counted : ℤ) = N := by
    intro u hu
    rcases hall u with hspin | hexit
    · exfalso
      obtain ⟨i, -, hbt⟩ := ht
      obtain ⟨j, -, hbu⟩ := hspin
      rw [blocked_iff] at hbt hbu
      cases t <;> cases u <;> simp [avail] at hbt hbu hu <;> omega
    · exact_mod_cast counted_of_exited hf hexit
  have hblocked : avail MAX t.isLeft s.mem = 0 := by
    obtain ⟨i, -, hbt⟩ := ht
    exact (blocked_iff MAX t s.mem).1 hbt
  cases t with
  | inl p =>
      have hsum : ∑ q : P, ((s.status (.inl q)).loc.counted : ℤ) < ∑ _q : P, (N : ℤ) :=
        Finset.sum_lt_sum (fun q _ => hle (.inl q)) ⟨p, Finset.mem_univ p, hlt⟩
      have hgets : ∑ c : C, ((s.status (.inr c)).loc.counted : ℤ) = ∑ _c : C, (N : ℤ) :=
        Finset.sum_congr rfl fun c _ => hfinished (.inr c) (by simp)
      simp only [Finset.sum_const, Finset.card_univ, nsmul_eq_mul] at hsum hgets
      simp [avail] at hblocked
      omega
  | inr c =>
      have hsum : ∑ c : C, ((s.status (.inr c)).loc.counted : ℤ) < ∑ _c : C, (N : ℤ) :=
        Finset.sum_lt_sum (fun c _ => hle (.inr c)) ⟨c, Finset.mem_univ c, hlt⟩
      have hputs : ∑ p : P, ((s.status (.inl p)).loc.counted : ℤ) = ∑ _p : P, (N : ℤ) :=
        Finset.sum_congr rfl fun p _ => hfinished (.inl p) (by simp)
      simp only [Finset.sum_const, Finset.card_univ, nsmul_eq_mul] at hsum hputs
      simp [avail] at hblocked
      omega

theorem joined_of_exited {MAX N : ℕ} {as : List (Action (P ⊕ C) (Event (Token P)))} {s : St P C}
    (h : (system P C MAX N).Exec as s) (hall : ∀ t, Exited s t) : Joined N s := by
  refine ⟨hall, ?_⟩
  rw [balanced_sides h]
  simp [counted_of_exited (fits h) (hall _)]

/-- **Where every step is in vain the threads are through.** -/
theorem joined_of_terminal {MAX N : ℕ} (hMAX : 1 ≤ MAX) (hmatched : Matched P C MAX N)
    {as : List (Action (P ⊕ C) (Event (Token P)))} {s : St P C}
    (h : (system P C MAX N).Exec as s) (hend : (system P C MAX N).active.Terminal s) :
    Joined N s := by
  have hall := spins_or_exits h hend
  exact joined_of_exited h fun t => (hall t).resolve_left (not_spins hMAX hmatched h hall t)

/-- In the joined state the counter is within the array. -/
theorem Joined.matched {MAX N : ℕ} (hput : Suffices P C MAX N true)
    (hget : Suffices P C MAX N false) {as : List (Action (P ⊕ C) (Event (Token P)))} {s : St P C}
    (h : (system P C MAX N).Exec as s) (hjoined : Joined N s) : Matched P C MAX N := by
  have hfull := (kept hput h).nonneg
  have hempty := (kept hget h).nonneg
  simp only [avail, if_true, Bool.false_eq_true, if_false] at hfull hempty
  rw [hjoined.left] at hfull hempty
  refine ⟨?_, ?_⟩
  · have hread : (Fintype.card C : ℤ) * N ≤ Fintype.card P * N := by omega
    exact_mod_cast hread
  · have hleft : (Fintype.card P : ℤ) * N ≤ Fintype.card C * N + MAX := by omega
    exact_mod_cast hleft

omit [DecidableEq P] [DecidableEq C] in
theorem rank_start (N : ℕ) : rank 0 (weight N) (fun _ => 0) (start P C)
    = (Fintype.card P + Fintype.card C) * (6 * N + 1) := by
  simp [rank, start, rankAt, weight]

/-- **When the spinning buffer never locks up**, for numbers of threads with which all accesses stay
within the array: leaving out the tests in vain, every run takes a bounded number of steps to where
it is; it can be continued until all threads have exited if and only if the numbers match; and then
there is no other state in which every possible step is a test in vain. -/
theorem spinning_ends {MAX N : ℕ} (hMAX : 1 ≤ MAX)
    (hP : Fintype.card P ≤ 1 ∨ Fintype.card P * N ≤ MAX)
    (hC : Fintype.card C ≤ 1 ∨ Fintype.card P * N = 0)
    {as : List (Action (P ⊕ C) (Event (Token P)))} {s : St P C}
    (h : (system P C MAX N).Exec as s) :
    (∀ e ∈ as.filterMap Action.event, 0 ≤ e.slot ∧ e.slot < MAX) ∧
      (∃ bs, (system P C MAX N).active.Exec bs s ∧ bs.Sublist as ∧
        bs.filterMap Action.event = as.filterMap Action.event ∧
        bs.length ≤ (Fintype.card P + Fintype.card C) * (6 * N + 1)) ∧
      ((∃ bs s', (system P C MAX N).Run s bs s' ∧ Joined N s') ↔ Matched P C MAX N) ∧
      (Matched P C MAX N → (system P C MAX N).active.Terminal s → Joined N s) := by
  have hput : Suffices P C MAX N true := suffices_producers hP
  have hget : Suffices P C MAX N false := suffices_consumers hC
  refine ⟨inRange_of_kept hput hget as s h, ?_, ⟨?_, fun hmatched => ?_⟩,
    fun hmatched => joined_of_terminal hMAX hmatched h⟩
  · obtain ⟨bs, hbs, hsub, hobs⟩ := h.active Action.event fun as s a hr hs =>
      event_of_idle hr hs
    have hle := (ranked MAX N).active_length_le (v := fun _ => 0)
      (fun _ s _ => actPaysOrIdles MAX N s) hbs
    rw [rank_start, countP_isSpurious hbs.of_active] at hle
    exact ⟨bs, hbs, hsub, hobs, by omega⟩
  · rintro ⟨bs, s', hrun, hjoined⟩
    exact hjoined.matched hput hget (h.trans hrun)
  · refine Lts.exists_run_of_rank (rank 0 (weight N) fun _ => 0) (fun as s hr hgoal => ?_) h
    -- some step changes something, and that one lowers the rank
    have hmore : ¬ (system P C MAX N).active.Terminal s := fun hend =>
      hgoal (joined_of_terminal hMAX hmatched hr hend)
    simp only [Lts.Terminal, not_forall, not_not] at hmore
    obtain ⟨a, s', hstep, hne⟩ := hmore
    refine ⟨a, s', hstep, ?_⟩
    cases a with
    | step t e =>
        exact (ranked MAX N).rank_lt (actPaysOrIdles MAX N s) hstep (Ne.symm hne)
    | spurious t =>
        have hzero := countP_isSpurious (hr.trans (Lts.Run.single hstep))
        simp [List.countP_append, Action.isSpurious] at hzero

/-- With the numbers of the program, and with two producers whose tokens all fit, from the start. -/
theorem spinning_ends_start :
    (∃ bs s', (system Unit Unit 5 9).Run (start Unit Unit) bs s' ∧ Joined 9 s') ∧
      ∃ bs s', (system Bool Unit 5 2).Run (start Bool Unit) bs s' ∧ Joined 2 s' := by
  have hone := spinning_ends (by decide) (Or.inl (by decide)) (Or.inl (by decide))
    (Lts.Exec.init (T := system Unit Unit 5 9) rfl)
  have htwo := spinning_ends (by decide) (Or.inr (by decide)) (Or.inl (by decide))
    (Lts.Exec.init (T := system Bool Unit 5 2) rfl)
  exact ⟨hone.2.2.1.2 ⟨by decide, by decide⟩, htwo.2.2.1.2 ⟨by decide, by decide⟩⟩

end SpinBuffer
