/-
**No lost wake-up in the bounded buffer with condition variables.**

Each operation signals one waiter, and a woken thread can lose the race for the mutex and go back to
sleep.  That the system nevertheless never gets stuck rests on a count: as long as a thread sleeps
on a condition, enough threads that wait for the same condition are awake, and have an access left,
to use up everything the condition stands for (`CondBuffer.Served`).  A signal that is about to be
sent counts as well.  Together with the balance of puts and gets (`CondBuffer.Balanced`) this
excludes that every unfinished thread is asleep, when as many threads produce as consume.

Main definitions:

* `CondBuffer.avail` — what a waiter on a condition waits for;
* `CondBuffer.demand` — what a thread contributes to using it up;
* `CondBuffer.Served`, `CondBuffer.Balanced` — the two invariants.

Main results:

* `CondBuffer.served`, `CondBuffer.balanced` — they hold in every reachable state;
* `CondBuffer.not_stuck` — **no reachable state is stuck**.
-/

import AupPrograms.CondBuffer
import Mathlib.Algebra.Order.BigOperators.Group.Finset

set_option relaxedAutoImplicit false
set_option autoImplicit false

namespace CondBuffer

open Pthread BoundedBuffer

variable {P C : Type}

/-! ### Conditions and sides -/

theorem cond_ne_wakes (MAX : ℕ) (t : P ⊕ C) : (side MAX t).cond ≠ (side MAX t).wakes := by
  cases t <;> simp [side, producerSide, consumerSide]

theorem eq_cond_or_wakes (MAX : ℕ) (t : P ⊕ C) (c : Cond) :
    c = (side MAX t).cond ∨ c = (side MAX t).wakes := by
  cases t <;> cases c <;> simp [side, producerSide, consumerSide]

/-- **What a waiter on `c` waits for**: tokens, or free slots. -/
def avail {τ : Type} (MAX : ℕ) (c : Cond) (g : Mem τ) : ℤ :=
  match c with
  | .notEmpty => g.count
  | .notFull => MAX - g.count

theorem blocked_iff (MAX : ℕ) (t : P ⊕ C) (g : Mem (Token P)) :
    (side MAX t).blocked g = true ↔ avail MAX (side MAX t).cond g = 0 := by
  cases t <;> simp [side, producerSide, consumerSide, avail]
  omega

/-- An access uses up one of what its thread waits for, and provides one of what it signals. -/
theorem avail_access (MAX : ℕ) (t : P ⊕ C) (i : ℕ) (g : Mem (Token P)) :
    avail MAX (side MAX t).cond ((side MAX t).access i g) = avail MAX (side MAX t).cond g - 1 ∧
      avail MAX (side MAX t).wakes ((side MAX t).access i g)
        = avail MAX (side MAX t).wakes g + 1 := by
  cases t <;> simp [side, producerSide, consumerSide, avail] <;> omega

/-! ### The demand -/

/-- **What a thread contributes to using up what `c` stands for**: a thread that waits on `c`
contributes while it is awake and has an access left, a thread that signals `c` while the signal is
still to be sent. -/
def demand (MAX N : ℕ) (c : Cond) (t : P ⊕ C) : Status Loc Unit Cond → ℤ
  | .run l =>
      if (side MAX t).cond = c then if l.done < N then 1 else 0
      else if l.pc = .signal then 1 else 0
  | .woken _ l => if (side MAX t).cond = c ∧ l.done < N then 1 else 0
  | .asleep _ _ _ => 0

theorem demand_nonneg (MAX N : ℕ) (c : Cond) (t : P ⊕ C) (st : Status Loc Unit Cond) :
    0 ≤ demand MAX N c t st := by
  cases st with
  | run l => simp only [demand]; split_ifs <;> omega
  | asleep c' m l => exact le_refl _
  | woken m l => simp only [demand]; split_ifs <;> omega

/-- For its own condition only the accesses made by a running thread matter. -/
theorem demand_own {MAX N : ℕ} {t : P ⊕ C} {l l' : Loc} (hd : l'.done = l.done) :
    demand MAX N (side MAX t).cond t (.run l') = demand MAX N (side MAX t).cond t (.run l) := by
  simp only [demand, if_true, hd]

/-- Away from the signal only the accesses made by a running thread matter. -/
theorem demand_congr {MAX N : ℕ} {c : Cond} {t : P ⊕ C} {l l' : Loc} (hd : l'.done = l.done)
    (hl : l.pc ≠ .signal) (hl' : l'.pc ≠ .signal) :
    demand MAX N c t (.run l') = demand MAX N c t (.run l) := by
  by_cases hc : (side MAX t).cond = c
  · simp only [demand, if_pos hc, hd]
  · simp only [demand, if_neg hc, if_neg hl, if_neg hl']

/-- A thread that waits again for its mutex contributes what it will contribute at its test. -/
theorem demand_woken {MAX N : ℕ} {c : Cond} {t : P ⊕ C} {l : Loc} (hl : l.pc ≠ .signal) :
    demand MAX N c t (.woken () l) = demand MAX N c t (.run l) := by
  by_cases hc : (side MAX t).cond = c
  · simp only [demand, hc, true_and, if_true]
  · simp only [demand, hc, false_and, if_false, if_neg hl]

variable [Fintype P] [Fintype C]

/-- **As long as a thread sleeps on `c`, what `c` stands for is going to be used up** by the threads
that are awake. -/
def Served (MAX N : ℕ) (c : Cond) (s : St P C) : Prop :=
  ∀ t l, s.status t = .asleep c () l →
    avail MAX c s.mem ≤ ∑ u, demand MAX N c u (s.status u)

variable [DecidableEq P] [DecidableEq C]

/-- A thread moves without falling asleep on `c`, touching the memory or lowering its demand. -/
theorem Served.goto {MAX N : ℕ} {c : Cond} {s : St P C} (h : Served MAX N c s) {t : P ⊕ C}
    {st : Status Loc Unit Cond} (hst : ∀ l, st ≠ .asleep c () l)
    (hd : demand MAX N c t (s.status t) ≤ demand MAX N c t st) : Served MAX N c (s.goto t st) := by
  intro u l hu
  have hut : u ≠ t := fun hut => hst l (by simpa [hut] using hu)
  have := h u l (by simpa [Function.update_of_ne hut] using hu)
  rw [State.sum_goto]
  exact this.trans (by omega)

omit [DecidableEq P] [DecidableEq C] in
/-- Only the statuses and the memory matter. -/
theorem Served.give {MAX N : ℕ} {c : Cond} {s : St P C} (h : Served MAX N c s)
    (o : Option (P ⊕ C)) : Served MAX N c (s.give () o) := h

/-- A thread falls asleep: on its own condition, of which there is nothing left. -/
theorem Served.sleep {MAX N : ℕ} {c : Cond} {s : St P C} (h : Served MAX N c s) {t : P ⊕ C} {i : ℕ}
    (hs : s.status t = .run ⟨.wait, i⟩) (hb : (side MAX t).blocked s.mem = true) :
    Served MAX N c (s.goto t (.asleep (side MAX t).cond () ⟨.test, i⟩)) := by
  by_cases hc : (side MAX t).cond = c
  · intro u l _
    have havail : avail MAX c s.mem = 0 := by rw [← hc]; exact (blocked_iff MAX t s.mem).1 hb
    rw [State.goto_mem, havail]
    exact Finset.sum_nonneg fun u _ => demand_nonneg MAX N c u _
  · refine h.goto (fun l hl => hc (Status.asleep.inj hl).1) ?_
    simp [hs, demand, hc]

/-- A thread makes its access: it uses up one of what it waited for, and owes a signal for one of
what the others wait for. -/
theorem Served.access {MAX N : ℕ} {c : Cond} {s : St P C} (h : Served MAX N c s) {t : P ⊕ C}
    {i : ℕ} (hs : s.status t = .run ⟨.access, i⟩) (hi : i < N) :
    Served MAX N c
      ((s.store ((side MAX t).access i s.mem)).goto t (.run ⟨.signal, i⟩)) := by
  intro u l hu
  have hut : u ≠ t := fun hut => by simp [hut] at hu
  have hle := h u l (by simpa [Function.update_of_ne hut] using hu)
  obtain ⟨hown, hother⟩ := avail_access MAX t i s.mem
  rw [State.sum_goto, State.goto_mem, State.store_mem, State.store_status, hs]
  rcases eq_cond_or_wakes MAX t c with rfl | rfl
  · -- what is available and the demand may both drop by one
    rw [hown]
    have h₀ := demand_nonneg MAX N (side MAX t).cond t (.run ⟨.signal, i⟩)
    have h₁ : demand MAX N (side MAX t).cond t (.run ⟨.access, i⟩) = 1 := by
      simp [demand, Loc.done, hi]
    omega
  · -- the signal that is now due makes up for what has become available
    rw [hother]
    have h₀ : demand MAX N (side MAX t).wakes t (.run ⟨.access, i⟩) = 0 := by
      simp [demand, cond_ne_wakes]
    have h₁ : demand MAX N (side MAX t).wakes t (.run ⟨.signal, i⟩) = 1 := by
      simp [demand, cond_ne_wakes]
    omega

/-- A signal is handed over to the thread it wakes. -/
theorem Served.wake {MAX N : ℕ} {c : Cond} {s : St P C} (h : Served MAX N c s) {t u : P ⊕ C}
    {i : ℕ} {l : Loc} (hs : s.status t = .run ⟨.signal, i⟩)
    (hu : s.status u = .asleep (side MAX t).wakes () l)
    (hsh : Shape MAX N u (s.status u)) :
    Served MAX N c ((s.goto t (.run ⟨.unlock, i⟩)).goto u (.woken () l)) := by
  have hut : u ≠ t := fun hut => by rw [hut, hs] at hu; cases hu
  rw [hu] at hsh
  obtain ⟨hcond, hpc, hi⟩ := hsh
  have hdone : l.done < N := by simpa [Loc.done, hpc] using hi
  intro v l' hv
  have hvu : v ≠ u := fun hvu => by simp [hvu] at hv
  have hvt : v ≠ t := fun hvt => by simp [hvt, Function.update_of_ne (Ne.symm hut)] at hv
  have hle := h v l' (by simpa [Function.update_of_ne hvu, Function.update_of_ne hvt] using hv)
  rw [State.sum_goto, State.sum_goto, State.goto_mem, State.goto_mem, State.goto_status,
    Function.update_of_ne hut, hs, hu]
  rcases eq_cond_or_wakes MAX t c with rfl | rfl
  · -- the sleeper waits for the other condition
    have h₀ : demand MAX N (side MAX t).cond t (.run ⟨.signal, i⟩)
        = demand MAX N (side MAX t).cond t (.run ⟨.unlock, i⟩) := demand_own rfl
    have h₁ := demand_nonneg MAX N (side MAX t).cond u (.woken () l)
    have h₂ : demand MAX N (side MAX t).cond u (.asleep (side MAX t).wakes () l) = 0 := rfl
    omega
  · -- the woken thread contributes what the signal did
    have h₀ : demand MAX N (side MAX t).wakes t (.run ⟨.signal, i⟩) = 1 := by
      simp [demand, cond_ne_wakes]
    have h₁ : demand MAX N (side MAX t).wakes t (.run ⟨.unlock, i⟩) = 0 := by
      simp [demand, cond_ne_wakes]
    have h₂ : demand MAX N (side MAX t).wakes u (.woken () l) = 1 := by
      simp [demand, ← hcond, hdone]
    have h₃ : demand MAX N (side MAX t).wakes u (.asleep (side MAX t).wakes () l) = 0 := rfl
    omega

/-- A signal is lost only when nobody sleeps on its condition. -/
theorem Served.lost {MAX N : ℕ} {c : Cond} {s : St P C} (h : Served MAX N c s) {t : P ⊕ C} {i : ℕ}
    (hs : s.status t = .run ⟨.signal, i⟩)
    (hn : ∀ u l, s.status u ≠ .asleep (side MAX t).wakes () l) :
    Served MAX N c (s.goto t (.run ⟨.unlock, i⟩)) := by
  rcases eq_cond_or_wakes MAX t c with rfl | rfl
  · exact h.goto (by simp) (by rw [hs]; exact le_of_eq (demand_own rfl))
  · intro u l hu
    by_cases hut : u = t
    · simp [hut] at hu
    · exact absurd (by simpa [Function.update_of_ne hut] using hu) (hn u l)

/-- **The step lemma.** -/
theorem Served.move {MAX N : ℕ} {c : Cond} {s s' : St P C} {e : Option (Event (Token P))}
    (h : Served MAX N c s) (hsh : ∀ t, Shape MAX N t (s.status t))
    (htest : ∀ t, Tested MAX t s.mem (s.status t)) (hm : Move MAX N s e s') :
    Served MAX N c s' := by
  cases hm with
  | enter hs _ | leave hs _ | blocked hs _ | clear hs _ =>
      exact h.goto (by simp) (by rw [hs]; exact (demand_congr rfl (by simp) (by simp)).ge)
  | lock hs _ =>
      refine (h.give _).goto (by simp) ?_
      rw [State.give_status, hs]
      exact (demand_congr rfl (by simp) (by simp)).ge
  | unlock hs _ =>
      refine (h.give _).goto (by simp) ?_
      rw [State.give_status, hs]
      exact (demand_congr rfl (by simp) (by simp)).ge
  | @sleep t i hs _ =>
      have hb := htest t
      rw [hs] at hb
      exact (h.give _).sleep hs hb
  | @access t i hs =>
      have hi := hsh t
      rw [hs] at hi
      exact h.access hs hi
  | @wake t u i l hs hu => exact h.wake hs hu (hsh u)
  | lost hs hn => exact h.lost hs hn
  | @relock t l hs _ =>
      have hl : l.pc = .test := by have := hsh t; rw [hs] at this; exact this.1
      refine (h.give _).goto (by simp) ?_
      rw [State.give_status, hs]
      exact (demand_woken (by simp [hl])).le
  | spurious hs => exact h.goto (by simp) (by rw [hs]; exact demand_nonneg ..)

theorem served {MAX N : ℕ} {as : List (Action (P ⊕ C) (Event (Token P)))} {s : St P C}
    (h : (system P C MAX N).Exec as s) (c : Cond) : Served MAX N c s := by
  refine Lts.Exec.invariant (I := fun _ s => Served MAX N c s) ?_ ?_ h
  · rintro s rfl t l ht
    simp [start] at ht
  · intro as s a s' hr hI hs
    exact hI.move (shape hr) (inv_of_exec hr).tested (move_of_step hs)

/-! ### The balance of puts and gets -/

/-- The puts a thread has made, or minus the gets. -/
def net (t : P ⊕ C) (st : Status Loc Unit Cond) : ℤ :=
  match t with
  | .inl _ => st.loc.done
  | .inr _ => -st.loc.done

/-- The counter is the number of puts made minus the number of gets made. -/
def Balanced (s : St P C) : Prop := s.mem.count = ∑ t, net t (s.status t)

theorem Balanced.move {MAX N : ℕ} {s s' : St P C} {e : Option (Event (Token P))}
    (h : Balanced s) (hm : Move MAX N s e s') : Balanced s' := by
  have hb : s.mem.count = ∑ u, net u (s.status u) := h
  cases he : e with
  | none =>
      obtain ⟨hmem, hdone⟩ := hm.silent he
      rw [Balanced, hmem, hb]
      refine Finset.sum_congr rfl fun u _ => ?_
      cases u <;> simp only [net, hdone]
  | some ev =>
      obtain ⟨t, i, hs, -, rfl⟩ := hm.visible he
      rw [Balanced, State.sum_goto, State.store_status, hs, State.goto_mem, State.store_mem, ← hb]
      cases t with
      | inl p => simp [side, producerSide, net, Loc.done]
      | inr c => simp [side, consumerSide, net, Loc.done]; omega

theorem balanced {MAX N : ℕ} {as : List (Action (P ⊕ C) (Event (Token P)))} {s : St P C}
    (h : (system P C MAX N).Exec as s) : Balanced s := by
  refine Lts.Exec.state_invariant (I := Balanced) ?_ ?_ h
  · rintro s rfl
    rw [Balanced, Finset.sum_eq_zero]
    · rfl
    · rintro (p | c) _ <;> simp [start, net, Loc.done]
  · intro s a s' hI hs
    exact hI.move (move_of_step hs)

/-! ### No reachable state is stuck -/

/-- Thread `t` has not finished its `N` iterations. -/
def Unfinished (N : ℕ) (s : St P C) (t : P ⊕ C) : Prop := (s.status t).loc.i < N

/-- Thread `t` has exited. -/
def Exited (s : St P C) (t : P ⊕ C) : Prop := ∃ i, s.status t = .run ⟨.exit, i⟩

omit [Fintype P] [Fintype C] [DecidableEq P] [DecidableEq C] in
theorem done_le {MAX N : ℕ} {t : P ⊕ C} {st : Status Loc Unit Cond} (h : Shape MAX N t st) :
    st.loc.done ≤ N := by
  cases st with
  | run l =>
      obtain ⟨pc, i⟩ := l
      cases pc <;> simp only [Shape, Loc.InRange, Status.loc_run, Loc.done] at h ⊢ <;> omega
  | asleep c m l =>
      obtain ⟨-, hpc, hi⟩ := h
      simp [Loc.done, hpc]; omega
  | woken m l =>
      obtain ⟨hpc, hi⟩ := h
      simp [Loc.done, hpc]; omega

omit [Fintype P] [Fintype C] [DecidableEq P] [DecidableEq C] in
/-- A finished thread has made all its accesses. -/
theorem done_eq {MAX N : ℕ} {s : St P C} {t : P ⊕ C} (h : Shape MAX N t (s.status t))
    (hf : ¬ Unfinished N s t) : (s.status t).loc.done = N := by
  have hle := done_le h
  have hge : (s.status t).loc.i ≤ (s.status t).loc.done := by
    unfold Loc.done
    split <;> omega
  simp only [Unfinished] at hf
  omega

omit [Fintype P] [Fintype C] [DecidableEq P] [DecidableEq C] in
/-- A sleeper has an access left. -/
theorem done_lt {MAX N : ℕ} {t : P ⊕ C} {st : Status Loc Unit Cond} (h : Shape MAX N t st)
    (hst : st.IsAsleep) : st.loc.done < N := by
  cases st with
  | asleep c m l =>
      obtain ⟨-, hpc, hi⟩ := h
      simpa [Loc.done, hpc] using hi
  | run l => exact hst.elim
  | woken m l => exact hst.elim

omit [Fintype P] [Fintype C] [DecidableEq P] [DecidableEq C] in
/-- When every unfinished thread is asleep, nobody contributes to using up anything. -/
theorem demand_eq_zero {MAX N : ℕ} {c : Cond} {s : St P C} {t : P ⊕ C}
    (h : Shape MAX N t (s.status t)) (hall : Unfinished N s t → (s.status t).IsAsleep) :
    demand MAX N c t (s.status t) = 0 := by
  by_cases hf : Unfinished N s t
  · have hst := hall hf
    cases hs : s.status t with
    | asleep c m l => rfl
    | run l => rw [hs] at hst; exact hst.elim
    | woken m l => rw [hs] at hst; exact hst.elim
  · have hdone := done_eq h hf
    cases hs : s.status t with
    | asleep c m l => rfl
    | woken m l =>
        rw [hs, Status.loc_woken] at hdone
        simp [demand, hdone]
    | run l =>
        rw [hs, Status.loc_run] at hdone
        have hsig : l.pc ≠ .signal := fun hpc => by
          simp only [Unfinished, hs, Status.loc_run] at hf
          simp [Loc.done, hpc] at hdone
          omega
        simp [demand, hdone, hsig]

/-- When every unfinished thread is asleep, nothing is left of what a sleeper waits for. -/
theorem avail_le_zero {MAX N : ℕ} {as : List (Action (P ⊕ C) (Event (Token P)))} {s : St P C}
    (h : (system P C MAX N).Exec as s) (hall : ∀ u, Unfinished N s u → (s.status u).IsAsleep)
    {t : P ⊕ C} (ht : (s.status t).IsAsleep) : avail MAX (side MAX t).cond s.mem ≤ 0 := by
  have hsum : ∑ u, demand MAX N (side MAX t).cond u (s.status u) = 0 :=
    Finset.sum_eq_zero fun u _ => demand_eq_zero (shape h u) (hall u)
  cases hs : s.status t with
  | asleep c m l =>
      have hc : c = (side MAX t).cond := by have := shape h t; rw [hs] at this; exact this.1
      rw [← hsum]
      exact served h _ t l (by rw [hs, hc])
  | run l => rw [hs] at ht; exact ht.elim
  | woken m l => rw [hs] at ht; exact ht.elim

/-- Threads that have each made `N` accesses at most, and one of them fewer. -/
theorem sum_lt {κ : Type} [Fintype κ] {N : ℕ} {f : κ → ℤ} (hle : ∀ k, f k ≤ N) {k₀ : κ}
    (hlt : f k₀ < N) : ∑ k, f k < Fintype.card κ * (N : ℤ) := by
  have := Finset.sum_lt_sum (s := Finset.univ) (fun k _ => hle k) ⟨k₀, Finset.mem_univ _, hlt⟩
  simpa using this

/-- **Some unfinished thread is awake.** -/
theorem exists_awake {MAX N : ℕ} (hMAX : 1 ≤ MAX) (hcard : Fintype.card P = Fintype.card C)
    {as : List (Action (P ⊕ C) (Event (Token P)))} {s : St P C}
    (h : (system P C MAX N).Exec as s) {t : P ⊕ C} (ht : Unfinished N s t) :
    ∃ u, Unfinished N s u ∧ ¬ (s.status u).IsAsleep := by
  by_contra hcon
  have hall : ∀ u, Unfinished N s u → (s.status u).IsAsleep := fun u hu => by
    by_contra hu'
    exact hcon ⟨u, hu, hu'⟩
  have hI := inv_of_exec h
  have h0 := hI.count_nonneg
  have h1 := hI.count_le
  have hbal : s.mem.count = ∑ p : P, ((s.status (.inl p)).loc.done : ℤ)
      - ∑ c : C, ((s.status (.inr c)).loc.done : ℤ) := by
    have hb : s.mem.count = ∑ u, net u (s.status u) := balanced h
    rw [hb, Fintype.sum_sum_type]
    simp [net, sub_eq_add_neg]
  -- the sleepers of one side leave nothing for their own condition, so the other side is finished
  cases t with
  | inl p =>
      have hav := avail_le_zero h hall (hall _ ht)
      simp only [side, producerSide, avail] at hav
      have hfin : ∀ c : C, (s.status (.inr c)).loc.done = N := fun c =>
        done_eq (shape h _) fun hc => by
          have := avail_le_zero h hall (hall _ hc)
          simp only [side, consumerSide, avail] at this
          omega
      have hlt : ((s.status (.inl p)).loc.done : ℤ) < N := by
        exact_mod_cast done_lt (shape h _) (hall _ ht)
      have hsum := sum_lt (f := fun p : P => ((s.status (.inl p)).loc.done : ℤ))
        (fun p => by exact_mod_cast done_le (shape h _)) hlt
      simp only [hfin, Finset.sum_const, Finset.card_univ, nsmul_eq_mul, ← hcard] at hbal
      omega
  | inr c =>
      have hav := avail_le_zero h hall (hall _ ht)
      simp only [side, consumerSide, avail] at hav
      have hfin : ∀ p : P, (s.status (.inl p)).loc.done = N := fun p =>
        done_eq (shape h _) fun hp => by
          have := avail_le_zero h hall (hall _ hp)
          simp only [side, producerSide, avail] at this
          omega
      have hlt : ((s.status (.inr c)).loc.done : ℤ) < N := by
        exact_mod_cast done_lt (shape h _) (hall _ ht)
      have hsum := sum_lt (f := fun c : C => ((s.status (.inr c)).loc.done : ℤ))
        (fun c => by exact_mod_cast done_le (shape h _)) hlt
      simp only [hfin, Finset.sum_const, Finset.card_univ, nsmul_eq_mul, hcard] at hbal
      omega

omit [Fintype P] [Fintype C] [DecidableEq P] [DecidableEq C] in
/-- There is one mutex only, and it is released before the loop goes on. -/
theorem flat (MAX N : ℕ) : Flat (code (P := P) (C := C) MAX N) fun _ l _ => l.Locked where
  unique _ _ _ _ _ _ := rfl
  no_lock := by
    rintro t ⟨pc, i⟩ m m' k hl
    rw [code_eq]
    cases pc <;> simp [worker, Loc.Locked] at hl ⊢
  no_exit := by
    rintro t ⟨pc, i⟩ m hl
    rw [code_eq]
    cases pc <;> simp [worker, Loc.Locked] at hl ⊢

omit [DecidableEq P] [DecidableEq C] [Fintype P] [Fintype C] in
/-- Only the last program point exits. -/
theorem exited_of_exit {MAX N : ℕ} {s : St P C} {t : P ⊕ C} {l : Loc} (hs : s.status t = .run l)
    (hl : code MAX N t l = .exit) : Exited s t := by
  obtain ⟨pc, i⟩ := l
  rw [code_eq] at hl
  cases pc <;> simp [worker] at hl
  exact ⟨i, hs⟩

/-- **No reachable state is stuck**, for as many producers as consumers: while some thread has not
finished its iterations, an unfinished thread is awake; the holder of the mutex can step; and while
some thread has not exited, some thread can step without a spurious wake-up. -/
theorem not_stuck {MAX N : ℕ} (hMAX : 1 ≤ MAX) (hcard : Fintype.card P = Fintype.card C)
    {as : List (Action (P ⊕ C) (Event (Token P)))} {s : St P C}
    (h : (system P C MAX N).Exec as s) :
    ((∃ t, Unfinished N s t) → ∃ u, Unfinished N s u ∧ ¬ (s.status u).IsAsleep) ∧
      (∀ u, s.owner () = some u → Enabled (code MAX N) s u) ∧
      ((∃ t, ¬ Exited s t) → ∃ u, Enabled (code MAX N) s u) := by
  have ho := lockOwned h
  refine ⟨fun ⟨t, ht⟩ => exists_awake hMAX hcard h ht,
    fun u => ho.enabled_of_owner (discipline MAX N) (flat MAX N), ?_⟩
  rintro ⟨t, ht⟩
  have hawake : ∃ u, ¬ (s.status u).IsAsleep ∧ ¬ Exited s u := by
    by_cases hf : ∃ t, Unfinished N s t
    · obtain ⟨t, ht⟩ := hf
      obtain ⟨u, hu, hawake⟩ := exists_awake hMAX hcard h ht
      refine ⟨u, hawake, ?_⟩
      rintro ⟨i, hi⟩
      have hsh := shape h u
      simp only [hi, Shape, Loc.InRange] at hsh
      simp only [Unfinished, hi, Status.loc_run] at hu
      omega
    · -- everybody is finished, and the sleepers would not be
      refine ⟨t, fun hst => ?_, ht⟩
      have := done_lt (shape h t) hst
      have := done_eq (shape h t) fun hu => hf ⟨t, hu⟩
      omega
  obtain ⟨u, hu, hex⟩ := hawake
  exact ho.exists_enabled (discipline MAX N) (flat MAX N) hu fun l hl hc =>
    hex (exited_of_exit hl hc)

omit [Fintype P] [Fintype C] in
/-- A consumer that comes first falls asleep. -/
theorem exists_sleeper (MAX : ℕ) {N : ℕ} (hN : 0 < N) (c : C) :
    ∃ as s, (system P C MAX N).Exec as s ∧ (s.status (.inr c)).IsAsleep := by
  let t : P ⊕ C := .inr c
  have h₁ : Move MAX N (start P C) none ((start P C).goto t (.run ⟨.lock, 0⟩)) :=
    Move.enter rfl hN
  have h₂ : Move MAX N ((start P C).goto t (.run ⟨.lock, 0⟩)) none
      (((start P C).give () (some t)).goto t (.run ⟨.test, 0⟩)) := by
    simpa using (Move.lock (t := t) (i := 0) (by simp) rfl :
      Move MAX N ((start P C).goto t (.run ⟨.lock, 0⟩)) none _)
  have h₃ : Move MAX N (((start P C).give () (some t)).goto t (.run ⟨.test, 0⟩)) none
      (((start P C).give () (some t)).goto t (.run ⟨.wait, 0⟩)) := by
    simpa using (Move.blocked (t := t) (i := 0) (by simp) rfl :
      Move MAX N (((start P C).give () (some t)).goto t (.run ⟨.test, 0⟩)) none _)
  have h₄ := (Move.sleep (t := t) (i := 0) (by simp) (by simp) :
      Move MAX N (((start P C).give () (some t)).goto t (.run ⟨.wait, 0⟩)) none _)
  obtain ⟨a₁, h₁, -⟩ := step_of_move h₁
  obtain ⟨a₂, h₂, -⟩ := step_of_move h₂
  obtain ⟨a₃, h₃, -⟩ := step_of_move h₃
  obtain ⟨a₄, h₄, -⟩ := step_of_move h₄
  refine ⟨[a₁, a₂, a₃, a₄], _, ⟨_, rfl, .cons h₁ (.cons h₂ (.cons h₃ (.single h₄)))⟩, ?_⟩
  simp [t, Status.IsAsleep]

/-- With the numbers of the program, while the consumer sleeps. -/
theorem not_stuck_sleeper : ∃ as s, (system Unit Unit 5 9).Exec as s ∧
    (s.status (.inr ())).IsAsleep ∧ (∃ u, Unfinished 9 s u ∧ ¬ (s.status u).IsAsleep) ∧
    ∃ u, Enabled (code 5 9) s u := by
  obtain ⟨as, s, hex, hst⟩ := exists_sleeper (P := Unit) 5 (N := 9) (by decide) ()
  obtain ⟨hawake, -, hstep⟩ := not_stuck (by decide) rfl hex
  refine ⟨as, s, hex, hst, hawake ⟨.inr (), ?_⟩, hstep ⟨.inr (), ?_⟩⟩
  · have hsh := shape hex (.inr ())
    cases hs : s.status (.inr ()) with
    | asleep c m l => rw [hs] at hsh; simpa [Unfinished, hs] using hsh.2.2
    | run l => rw [hs] at hst; exact hst.elim
    | woken m l => rw [hs] at hst; exact hst.elim
  · rintro ⟨i, hi⟩
    rw [hi] at hst
    exact hst

end CondBuffer
