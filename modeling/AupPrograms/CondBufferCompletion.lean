/-
**Every run of the bounded buffer with condition variables ends** (`main` of
`condition_variable_mutex_lock_unlock.c` returns from its two `pthread_join`).

That no reachable state is stuck leaves open whether the threads get anywhere: a woken thread can
find the buffer taken again and go back to sleep.  Each time it does, another thread has made an
access in between, and there are only so many accesses.  Counted this way, the steps of a run are
bounded by the loops, up to the spurious wake-ups; and a run that can go no further has carried out
every iteration of every thread.

Main definitions:

* `CondBuffer.weight` — what a thread at a location can still pay for;
* `CondBuffer.Finished` — every thread has exited, and what was written has been read.

Main results:

* `CondBuffer.ranked` — the weights decrease along the two functions;
* `CondBuffer.finished_of_exited` — once every thread has exited, every character written has been
  read exactly once;
* `CondBuffer.completes` — **every run is bounded, and ends nowhere else**.
-/

import AupPrograms.CondBufferProgress
import AupPrograms.PthreadRank

set_option relaxedAutoImplicit false
set_option autoImplicit false

namespace CondBuffer

open Pthread BoundedBuffer

variable {P C : Type}

/-! ### The weights -/

/-- What a thread at a location can still pay for: nine steps for each iteration left, of which the
signal keeps three for the thread it wakes up. -/
def weight (N : ℕ) (_ : P ⊕ C) : Loc → ℕ
  | ⟨.head, i⟩ => 9 * (N - i) + 1
  | ⟨.lock, i⟩ => 9 * (N - (i + 1)) + 9
  | ⟨.test, i⟩ => 9 * (N - (i + 1)) + 8
  | ⟨.wait, i⟩ => 9 * (N - (i + 1)) + 7
  | ⟨.access, i⟩ => 9 * (N - (i + 1)) + 7
  | ⟨.signal, i⟩ => 9 * (N - (i + 1)) + 6
  | ⟨.unlock, i⟩ => 9 * (N - (i + 1)) + 2
  | ⟨.exit, _⟩ => 0

theorem ranked (MAX N : ℕ) : Ranked (code (P := P) (C := C) MAX N) 2 (weight N) := by
  constructor
  all_goals
    rintro t ⟨pc, i⟩
    rw [code_eq]
    cases pc <;> simp [worker, weight]

/-- Every access to the shared memory leads down: into an iteration that is left, out of the loop,
or on from a test. -/
theorem actPays (MAX N : ℕ) (s : St P C) :
    ActPays (code MAX N) (weight N) (fun _ => 0) s := by
  rintro t ⟨pc, i⟩ f e k - hc
  rw [code_eq] at hc
  cases pc <;> simp only [worker, reduceCtorEq, Instr.act.injEq] at hc
  · obtain ⟨rfl, rfl, rfl⟩ := hc
    by_cases hi : i < N
    · simp only [hi, if_true, weight]
      omega
    · simp only [hi, if_false, weight]
      omega
  · obtain ⟨rfl, rfl, rfl⟩ := hc
    cases hb : (side MAX t).blocked s.mem <;> simp [hb, weight]
  · obtain ⟨rfl, rfl, rfl⟩ := hc
    simp [weight]

variable [DecidableEq P] [DecidableEq C]

/-! ### What has been written at the end -/

/-- A producer has written the tokens of all its finished iterations. -/
def Written (es : List (Event (Token P))) (s : St P C) : Prop :=
  ∀ p j, j < (s.status (.inl p)).loc.done → (p, j) ∈ puts es

theorem Written.move {MAX N : ℕ} {es : List (Event (Token P))} {s s' : St P C}
    {e : Option (Event (Token P))} (h : Written es s) (hm : Move MAX N s e s') :
    Written (es ++ e.toList) s' := by
  cases he : e with
  | none =>
      obtain ⟨-, hdone⟩ := hm.silent he
      intro p j hj
      rw [hdone] at hj
      simpa using h p j hj
  | some ev =>
      obtain ⟨t, i, hs, rfl, rfl⟩ := hm.visible he
      intro p j hj
      rw [Option.toList_some, puts, List.filterMap_append, List.mem_append]
      by_cases ht : Sum.inl p = t
      · -- the token of the iteration under way is the one just written
        obtain rfl := ht
        simp only [State.goto_status, Function.update_self, Status.loc_run, Loc.done] at hj
        rcases Nat.lt_succ_iff_lt_or_eq.1 hj with hj | rfl
        · refine Or.inl (h p j ?_)
          simpa [hs, Loc.done] using hj
        · exact Or.inr (by simp [side, producerSide, Event.written])
      · refine Or.inl (h p j ?_)
        simpa [Function.update_of_ne ht] using hj

theorem written {MAX N : ℕ} {as : List (Action (P ⊕ C) (Event (Token P)))} {s : St P C}
    (h : (system P C MAX N).Exec as s) : Written (as.filterMap Action.event) s := by
  refine Lts.Exec.invariant (I := fun as s => Written (as.filterMap Action.event) s) ?_ ?_ h
  · rintro s rfl p j hj
    simp [start, Loc.done] at hj
  · intro as s a s' hr hI hs
    have := hI.move (move_of_step hs)
    cases he : a.event <;> simpa [he] using this

/-- **The joined state**: every thread has exited, every producer has written the token of each of
its iterations, and each token has been read exactly once. -/
structure Finished (N : ℕ) (es : List (Event (Token P))) (s : St P C) : Prop where
  exited : ∀ t, Exited s t
  empty : s.mem.count = 0
  written : ∀ p j, (p, j) ∈ puts es ↔ j < N
  written_once : (puts es).Nodup
  read : (gets es).Perm ((puts es).map some)

variable [Fintype P] [Fintype C]

omit [Fintype P] [Fintype C] [DecidableEq P] [DecidableEq C] in
/-- An exited thread has carried out all its iterations. -/
theorem done_of_exited {MAX N : ℕ} {s : St P C} {t : P ⊕ C} (h : Shape MAX N t (s.status t))
    (ht : Exited s t) : (s.status t).loc.done = N := by
  obtain ⟨i, hi⟩ := ht
  rw [hi] at h ⊢
  simpa [Shape, Loc.InRange, Loc.done] using h

theorem finished_of_exited {MAX N : ℕ} (hcard : Fintype.card P = Fintype.card C)
    {as : List (Action (P ⊕ C) (Event (Token P)))} {s : St P C}
    (h : (system P C MAX N).Exec as s) (hall : ∀ t, Exited s t) :
    Finished N (as.filterMap Action.event) s := by
  have hI := inv_of_exec h
  have hdone : ∀ t, (s.status t).loc.done = N := fun t => done_of_exited (shape h t) (hall t)
  have hcount : s.mem.count = 0 := by
    have hb : s.mem.count = ∑ t, net t (s.status t) := balanced h
    rw [hb, Fintype.sum_sum_type]
    simp [net, hdone, hcard]
  refine ⟨hall, hcount, fun p j => ⟨fun hj => ?_, fun hj => ?_⟩, hI.nodup, ?_⟩
  · have hlt := hI.fresh p j hj
    rwa [hdone] at hlt
  · exact written h p j (by rw [hdone]; exact hj)
  · -- an empty buffer holds nothing that was written
    have hperm := hI.perm
    have hnil : contents s.mem = [] := by simp [contents, hcount]
    rwa [hnil, List.append_nil] at hperm

/-! ### Every run ends -/

omit [Fintype P] [Fintype C] [DecidableEq P] [DecidableEq C] in
/-- A thread that has iterations left has not exited. -/
theorem not_exited_of_unfinished {MAX N : ℕ} {s : St P C} {t : P ⊕ C}
    (h : Shape MAX N t (s.status t)) (ht : Unfinished N s t) : ¬ Exited s t := by
  rintro ⟨i, hi⟩
  simp only [hi, Shape, Loc.InRange] at h
  simp only [Unfinished, hi, Status.loc_run] at ht
  omega

/-- Where no thread can step, all of them have exited. -/
theorem exited_of_not_enabled {MAX N : ℕ} (hMAX : 1 ≤ MAX)
    (hcard : Fintype.card P = Fintype.card C) {as : List (Action (P ⊕ C) (Event (Token P)))}
    {s : St P C} (h : (system P C MAX N).Exec as s) (hno : ∀ u, ¬ Enabled (code MAX N) s u)
    (t : P ⊕ C) : Exited s t := by
  -- an awake thread that has not exited could step, or one that it waits for
  have hexit : ∀ u, ¬ (s.status u).IsAsleep → Exited s u := by
    intro u hu
    by_contra hnot
    obtain ⟨u', hu'⟩ := (lockOwned h).exists_enabled (discipline MAX N) (flat MAX N) hu
      fun l hl hc => hnot (exited_of_exit hl hc)
    exact hno u' hu'
  by_cases hst : (s.status t).IsAsleep
  · -- a sleeper has an access left, so some thread with an iteration left is awake
    have ht : Unfinished N s t := by
      by_contra hf
      have hlt := done_lt (shape h t) hst
      have heq := done_eq (shape h t) hf
      omega
    obtain ⟨u, hu, hawake⟩ := exists_awake hMAX hcard h ht
    exact absurd (hexit u hawake) (not_exited_of_unfinished (shape h u) hu)
  · exact hexit t hst

omit [DecidableEq P] [DecidableEq C] in
theorem rank_start (N : ℕ) : rank 2 (weight N) (fun _ => 0) (start P C)
    = (Fintype.card P + Fintype.card C) * (9 * N + 1) := by
  simp [rank, start, rankAt, weight]

/-- **Every run ends, and every iteration has been carried out when it does.**  With as many
producers as consumers: the number of steps of a run is bounded, up to four steps for each spurious
wake-up; a state in which no thread can step is reached only when all of them have exited and what
was written has been read; and every run can be continued to such a state. -/
theorem completes {MAX N : ℕ} (hMAX : 1 ≤ MAX) (hcard : Fintype.card P = Fintype.card C)
    {as : List (Action (P ⊕ C) (Event (Token P)))} {s : St P C}
    (h : (system P C MAX N).Exec as s) :
    as.length ≤ (Fintype.card P + Fintype.card C) * (9 * N + 1)
        + 4 * as.countP Action.isSpurious ∧
      ((∀ u, ¬ Enabled (code MAX N) s u) → Finished N (as.filterMap Action.event) s) ∧
      ∃ bs s', (system P C MAX N).Run s bs s' ∧
        Finished N ((as ++ bs).filterMap Action.event) s' := by
  refine ⟨?_, fun hno => ?_, ?_⟩
  · have hle := (ranked MAX N).length_le (v := fun _ => 0) (fun _ s _ => actPays MAX N s) h
    rw [rank_start] at hle
    omega
  · exact finished_of_exited hcard h (exited_of_not_enabled hMAX hcard h hno)
  · have hreach : ∃ bs s', (system P C MAX N).Run s bs s' ∧ ∀ t, Exited s' t := by
      refine Lts.exists_run_of_rank (rank 2 (weight N) fun _ => 0) (fun as s hr hgoal => ?_) h
      obtain ⟨u, e, s', hs⟩ : ∃ u, Enabled (code MAX N) s u := by
        by_contra hno
        exact hgoal (exited_of_not_enabled hMAX hcard hr fun u hu => hno ⟨u, hu⟩)
      exact ⟨_, s', hs, (ranked MAX N).pays (fun _ s _ => actPays MAX N s) as s _ s' hr hs⟩
    obtain ⟨bs, s', hrun, hall⟩ := hreach
    exact ⟨bs, s', hrun, finished_of_exited hcard (h.trans hrun) hall⟩

/-- With the numbers of the program, from a state in which the consumer sleeps. -/
theorem completes_sleeper : ∃ as s, (system Unit Unit 5 9).Exec as s ∧
    (s.status (.inr ())).IsAsleep ∧ as.length ≤ 164 + 4 * as.countP Action.isSpurious ∧
    ∃ bs s', (system Unit Unit 5 9).Run s bs s' ∧
      Finished 9 ((as ++ bs).filterMap Action.event) s' := by
  obtain ⟨as, s, hex, hst⟩ := exists_sleeper (P := Unit) 5 (N := 9) (by decide) ()
  obtain ⟨hle, -, hend⟩ := completes (by decide) rfl hex
  exact ⟨as, s, hex, hst, hle, hend⟩

end CondBuffer
