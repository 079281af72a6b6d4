/-
**The first counting thread is never left asleep** (`condition_variable.c`).

A signal of `functionCount2` is sent before its own increment and is lost when nobody sleeps.  The
last useful one nevertheless comes after the first thread has fallen asleep: that thread last found
the counter at most at `COUNT_HALT2`, and holds `condition_mutex` from then until it sleeps, so the
second thread passes its test once more before it can return (`CountHalt.Pending`).  This needs the
limit of the count to be at least two above the halt range.

It also needs the limit to be below the largest `int`.  Otherwise the first thread, which has passed
its test before the second returns, makes the counter go round when it counts once more; it then
counts up alone to the halt range and sleeps there for ever.

Main definitions:

* `CountHalt.Pending` — where the second thread can be while the first sleeps or is about to.

Main results:

* `CountHalt.waking` — it holds in every reachable state;
* `CountHalt.never_left_asleep` — **the first thread never sleeps after the second has returned, and
  until both have returned some thread can step**;
* `CountHalt.exists_left_asleep_of_max` — with the largest `int` as the limit it can.
-/

import AupPrograms.CountHalt

set_option relaxedAutoImplicit false
set_option autoImplicit false

namespace CountHalt

open Pthread

/-! ### While the first thread sleeps -/

/-- The first thread sleeps, or is about to. -/
def Dozing : Status Pc Mutex Unit → Prop
  | .asleep _ _ _ | .run .cond => True
  | _ => False

/-- **Where the second thread can be, for a counter `c`, while the first is dozing**: it has not
returned, and has not raised the counter past the halt range by more than the one increment after
which it tests the range again. -/
def Pending (L : Limits) (c : ℤ) : Status Pc Mutex Unit → Prop
  | .run .ret => False
  | .run .unlockCondition | .run .lockCount | .run .incr => c ≤ L.halt2
  | _ => c ≤ L.halt2 + 1

/-- The second thread returns at the limit of the count. -/
def Returned (L : Limits) (c : ℤ) (st : Status Pc Mutex Unit) : Prop := st = .run .ret → L.done ≤ c

/-- The invariant of the two threads. -/
structure Waking (L : Limits) (s : St) : Prop where
  returned : Returned L s.mem (s.status .two)
  pending : Dozing (s.status .one) → Pending L s.mem (s.status .two)

/-- When the first thread decides to wait, the second is not past the range. -/
theorem pending_of_le {L : Limits} (hL : L.halt2 + 2 ≤ L.done) {c : ℤ} {st : Status Pc Mutex Unit}
    (hret : Returned L c st) (hc : c ≤ L.halt2) : Pending L c st := by
  cases st with
  | asleep cv m pc | woken m pc => exact Int.le_add_one hc
  | run pc =>
      cases pc with
      | ret =>
          -- it has seen the limit of the count, which is above the range
          have := hret rfl
          exact absurd this (by omega)
      | unlockCondition | lockCount | incr => exact hc
      | _ => exact Int.le_add_one hc

/-- The owners do not matter. -/
theorem Waking.give {L : Limits} {s : St} (h : Waking L s) (m : Mutex) (o : Option Thread) :
    Waking L (s.give m o) := ⟨h.returned, h.pending⟩

/-- The first thread moves, and is not dozing afterwards. -/
theorem Waking.awake {L : Limits} {s : St} (h : Returned L s.mem (s.status .two))
    {st : Status Pc Mutex Unit} (hst : ¬ Dozing st) : Waking L (s.goto .one st) :=
  ⟨by simpa [Function.update_of_ne] using h, fun hd => absurd (by simpa using hd) hst⟩

/-- The second thread moves without touching the counter. -/
theorem Waking.goto_two {L : Limits} {s : St} (h : Waking L s) {pc : Pc}
    (hret : Returned L s.mem (.run pc))
    (hst : Dozing (s.status .one) → Pending L s.mem (s.status .two) → Pending L s.mem (.run pc)) :
    Waking L (s.goto .two (.run pc)) := by
  refine ⟨by simpa using hret, fun hd => ?_⟩
  have hd' : Dozing (s.status .one) := by simpa [Function.update_of_ne] using hd
  simpa using hst hd' (h.pending hd')

/-- The test of the first thread lets it doze inside the range only. -/
theorem Waking.high_one {L : Limits} (hL : L.halt2 + 2 ≤ L.done) {s : St} (h : Waking L s) :
    Waking L (s.goto .one (.run (high L .one s.mem))) := by
  simp only [high]
  split
  · refine ⟨by simpa [Function.update_of_ne] using h.returned, fun _ => ?_⟩
    have hp : Pending L s.mem (s.status .two) := pending_of_le hL h.returned ‹_›
    simpa [Function.update_of_ne] using hp
  · exact Waking.awake h.returned id

/-- A thread that goes to wait and one that signals are not there at the same time. -/
theorem not_dozing {s : St} (ho : LockOwned s) (htwo : s.status .two = .run .cond)
    (hn : ¬ (s.status .one).IsAsleep) : ¬ Dozing (s.status .one) := by
  cases hone : s.status .one with
  | asleep c m pc => rw [hone] at hn; exact absurd trivial hn
  | woken m pc => exact id
  | run pc =>
      cases pc with
      | cond =>
          exact absurd (ho.eq (m := .condition) (t := .one) (u := .two) (by rw [hone]; rfl)
            (by rw [htwo]; rfl)) (by decide)
      | _ => exact id

/-- Both comparisons of the second thread keep it within its bounds. -/
theorem pending_low {L : Limits} {c : ℤ} (h : c ≤ L.halt2 + 1) :
    Pending L c (.run (low L .two c)) := by
  simp only [low]
  split <;> exact h

theorem pending_high {L : Limits} {c : ℤ} (h : c ≤ L.halt2 + 1) :
    Pending L c (.run (high L .two c)) := by
  simp only [high]
  split
  · exact h
  · exact Int.not_lt.1 ‹_›

/-- So does its exit test, which it fails. -/
theorem pending_next {L : Limits} (hL : L.halt2 + 2 ≤ L.done) {c : ℤ} (h : c ≤ L.halt2 + 1) :
    Pending L c (.run (next L c)) := by
  have hnext : next L c = .lockCondition := if_neg (by omega)
  rw [hnext]
  exact h

theorem returned_next (L : Limits) (c : ℤ) : Returned L c (.run (next L c)) := by
  unfold next Returned
  split
  · exact fun _ => ‹_›
  · exact fun h => by cases h

/-- A step keeps the invariant. -/
theorem Waking.step {L : Limits} (hL : L.halt2 + 2 ≤ L.done) {s s' : St} {a : Action Thread Event}
    (ho : LockOwned s) (hinc : ∀ t, s.status t = .run .incr → inc s.mem = s.mem + 1)
    (h : Waking L s) (hm : Move L s a s') : Waking L s' := by
  have hret : ∀ pc, pc ≠ .ret → Returned L s.mem (.run pc) := fun pc hpc hr => by
    cases hr
    exact absurd rfl hpc
  cases hm with
  -- a mutex changes hands
  | @lockCondition t hs _ | @unlockCondition t hs _ | @lockCount t hs _ | @unlockCount t hs _ =>
      cases t with
      | one => exact Waking.awake (s := s.give _ _) h.returned id
      | two =>
          refine (h.give _ _).goto_two (hret _ (by decide)) fun _ hp => ?_
          simpa [hs, Pending] using hp
  | @testLow t hs =>
      cases t with
      | one => exact Waking.awake h.returned (by simp only [low]; split <;> exact id)
      | two =>
          refine h.goto_two ?_ fun _ hp => pending_low (by simpa [hs, Pending] using hp)
          simp only [low]
          split <;> exact hret _ (by decide)
  | @testHigh t hs =>
      cases t with
      | one => exact h.high_one hL
      | two =>
          refine h.goto_two ?_ fun _ hp => pending_high (by simpa [hs, Pending] using hp)
          simp only [high]
          split <;> exact hret _ (by decide)
  | sleep hs _ =>
      refine ⟨by simpa [Function.update_of_ne] using h.returned, fun _ => ?_⟩
      simpa [Function.update_of_ne] using h.pending (by rw [hs]; trivial)
  | relock _ _ => exact Waking.awake (s := s.give _ _) h.returned id
  | wake hs _ =>
      refine Waking.awake ?_ id
      simpa using hret .unlockCondition (by decide)
  | lost hs hn =>
      -- the signal is not lost on a dozing thread
      exact h.goto_two (hret _ (by decide)) fun hd _ => absurd hd (not_dozing ho hs hn)
  | @incr t hs =>
      rw [hinc t hs]
      cases t with
      | one =>
          refine Waking.awake (s := s.store _) (fun hr => ?_) id
          exact Int.le_add_one (h.returned hr)
      | two =>
          -- this uses up the one increment past the range
          refine ⟨fun hr => by simp at hr, fun hd => ?_⟩
          have hp := h.pending (by simpa [Function.update_of_ne] using hd)
          rw [hs] at hp
          simpa [Pending] using hp
  | @print t hs =>
      cases t with
      | one => exact Waking.awake h.returned id
      | two => exact h.goto_two (hret _ (by decide)) fun _ hp => by simpa [hs, Pending] using hp
  | @testDone t hs =>
      cases t with
      | one =>
          refine Waking.awake h.returned ?_
          unfold next
          split <;> exact id
      | two =>
          refine h.goto_two (returned_next L s.mem) fun _ hp => pending_next hL ?_
          simpa [hs, Pending] using hp
  | spurious _ => exact Waking.awake h.returned id

/-- **The invariant holds in every reachable state.** -/
theorem waking {L : Limits} (hL : L.halt2 + 2 ≤ L.done) (hmax : L.done < 2 ^ 31 - 1)
    {as : List (Action Thread Event)} {s : St} (h : (system L).Exec as s) : Waking L s := by
  refine Lts.Exec.invariant (I := fun _ s => Waking L s) ?_ ?_ h
  · rintro s rfl
    exact ⟨fun hr => by simp [start] at hr, fun hd => hd.elim⟩
  · intro as s a s' hr hw hs
    exact hw.step hL (lockOwned hr) (fun t ht => (counted hmax hr).inc_eq hmax ht)
      (move_of_step (shape hr) hs)

/-! ### Progress -/

/-- Either mutex is released before the other one is asked for. -/
theorem flat (L : Limits) : Flat (code L) fun _ pc m => pc.mutex = some m where
  unique := by
    intro t pc m m' hm hm'
    exact Option.some_inj.1 (hm.symm.trans hm')
  no_lock := by
    intro t pc m m' k hm hc
    cases t <;> cases pc <;> cases hc <;> cases hm
  no_exit := by
    intro t pc m hm hc
    cases t <;> cases pc <;> cases hc <;> cases hm

/-- A thread exits at the end only. -/
theorem eq_ret_of_exit {L : Limits} {t : Thread} {pc : Pc} (h : code L t pc = .exit) :
    pc = .ret := by
  cases t <;> cases pc <;> first | rfl | cases h

/-- **The first thread is never left asleep**: it does not sleep once the second has returned, and
as long as not both have returned some thread can step, without a spurious wake-up. -/
theorem never_left_asleep {L : Limits} (hL : L.halt2 + 2 ≤ L.done) (hmax : L.done < 2 ^ 31 - 1)
    {as : List (Action Thread Event)} {s : St} (h : (system L).Exec as s) :
    ¬ ((s.status .one).IsAsleep ∧ s.status .two = .run .ret) ∧
      ((∃ t, s.status t ≠ .run .ret) → ∃ t, Enabled (code L) s t) := by
  have hsh := shape h
  have hnot : ¬ ((s.status .one).IsAsleep ∧ s.status .two = .run .ret) := by
    rintro ⟨hone, htwo⟩
    have hdoze : Dozing (s.status .one) := by
      cases hs : s.status .one with
      | asleep c m pc => trivial
      | run pc | woken m pc => rw [hs] at hone; exact hone.elim
    have hp := (waking hL hmax h).pending hdoze
    rw [htwo] at hp
    exact hp
  refine ⟨hnot, fun ⟨t, ht⟩ => ?_⟩
  have hawake : ∃ u, ¬ (s.status u).IsAsleep ∧ s.status u ≠ .run .ret := by
    by_cases htwo : s.status .two = .run .ret
    · cases t with
      | one => exact ⟨.one, fun hone => hnot ⟨hone, htwo⟩, ht⟩
      | two => exact absurd htwo ht
    · refine ⟨.two, fun hst => ?_, htwo⟩
      -- the second thread never waits
      have hsh := hsh .two
      cases hs : s.status .two with
      | asleep c m pc => rw [hs] at hsh; cases hsh.1
      | run pc | woken m pc => rw [hs] at hst; exact hst
  obtain ⟨u, hu, hret⟩ := hawake
  exact (lockOwned h).exists_enabled (discipline L) (flat L) hu fun pc hpc hexit =>
    hret (by rw [hpc, eq_ret_of_exit hexit])

/-- In the halt range the first thread goes to sleep. -/
theorem run_to_sleep {L : Limits} {s : St} (hs : s.status .one = .run .lockCondition)
    (hcond : s.owner .condition = none) (hin : InHalt L s.mem) :
    ∃ as, (system L).Run s as (s.goto .one (.asleep () .condition .testLow)) := by
  obtain ⟨hge, hle⟩ := hin
  have h₁ : Move L s (.step .one none)
      ((s.give .condition (some .one)).goto .one (.run .testLow)) := .lockCondition hs hcond
  have h₂ : Move L ((s.give .condition (some .one)).goto .one (.run .testLow)) (.step .one none)
      ((s.give .condition (some .one)).goto .one (.run .testHigh)) := by
    simpa [low, hge] using (Move.testLow (t := .one) (by simp) :
      Move L ((s.give .condition (some .one)).goto .one (.run .testLow)) _ _)
  have h₃ : Move L ((s.give .condition (some .one)).goto .one (.run .testHigh)) (.step .one none)
      ((s.give .condition (some .one)).goto .one (.run .cond)) := by
    simpa [high, hle] using (Move.testHigh (t := .one) (by simp) :
      Move L ((s.give .condition (some .one)).goto .one (.run .testHigh)) _ _)
  have h₄ : Move L ((s.give .condition (some .one)).goto .one (.run .cond)) (.step .one none)
      (s.goto .one (.asleep () .condition .testLow)) := by
    simpa [State.give_self hcond] using (Move.sleep (by simp) (by simp) :
      Move L ((s.give .condition (some .one)).goto .one (.run .cond)) _ _)
  exact ⟨_, h₁.run.trans (h₂.run.trans (h₃.run.trans h₄.run))⟩

/-- The first thread asleep at the counter `c`, the second between two iterations. -/
def slept (c : ℤ) : St := (start.store c).goto .one (.asleep () .condition .testLow)

/-- With the thresholds of the program, the first thread can fall asleep at 3. -/
theorem exec_slept : ∃ as, (system limits).Exec as (slept 3) := by
  obtain ⟨as, hrun⟩ := run_count (L := limits) (s := start) rfl rfl rfl id (by decide) (by decide) 3
    (by decide)
  obtain ⟨bs, hrun'⟩ := run_to_sleep (L := limits) (s := start.store 3) rfl rfl
    ⟨by decide, by decide⟩
  exact ⟨_, start, rfl, hrun.trans hrun'⟩

/-- While it sleeps there the second thread can step. -/
theorem never_left_asleep_slept :
    (slept 3).status .two ≠ .run .ret ∧ ∃ t, Enabled (code limits) (slept 3) t := by
  obtain ⟨as, h⟩ := exec_slept
  obtain ⟨hnot, hstep⟩ := never_left_asleep (by decide) (by decide) h
  have hone : ((slept 3).status .one).IsAsleep := by simp [slept, Status.IsAsleep]
  exact ⟨fun htwo => hnot ⟨hone, htwo⟩, hstep ⟨.one, by simp [slept]⟩⟩

/-! ### Beyond the largest `int` -/

/-- The second thread returned at the largest `int`, the first about to count once more. -/
def overrun : St := (passed.store (2 ^ 31 - 1)).goto .two (.run .ret)

/-- With this limit the second thread counts up to it alone. -/
theorem exec_overrun {L : Limits} (hpos : 0 < L.halt1) (hdone : L.done = 2 ^ 31 - 1) :
    ∃ as, (system L).Exec as overrun := by
  obtain ⟨as, hr⟩ := exec_passed hpos
  have hmem : passed.mem = 0 := rfl
  obtain ⟨n, hn⟩ := Int.eq_ofNat_of_zero_le (by decide : (0 : ℤ) ≤ 2 ^ 31 - 2)
  obtain ⟨bs, hcount⟩ := run_count (L := L) (s := passed) rfl rfl rfl id (by decide) (by omega) n
    (by omega)
  obtain ⟨cs, hlast⟩ := run_iteration (L := L) (s := passed.store (passed.mem + n)) rfl rfl rfl
    (Or.inl id)
  have hinc : inc (passed.mem + n) = 2 ^ 31 - 1 := by
    rw [inc_eq (by omega) (by omega)]
    omega
  have hret : next L (2 ^ 31 - 1) = .ret := if_pos (by omega)
  rw [State.store_mem, State.store_store, hinc, hret] at hlast
  exact ⟨_, (hr.trans hcount).trans hlast⟩

/-- The first thread counts up to the lower threshold alone. -/
theorem run_count_one {L : Limits} {s : St} (hs : s.status .one = .run .lockCondition)
    (hcond : s.owner .condition = none) (hcount : s.owner .count = none) (hlo : -2 ^ 31 ≤ s.mem)
    (hmax : L.done ≤ 2 ^ 31 - 1) (hL : L.halt1 < L.done) (n : ℕ) (hn : s.mem + n ≤ L.halt1) :
    ∃ as, (system L).Run s as (s.store (s.mem + n)) := by
  refine run_upto n fun c hge hlt => ?_
  obtain ⟨as, hpass⟩ := run_passed (L := L) (s := s.store c) hs hcond (by simp; omega)
  have hlock : Move L ((s.store c).goto .one (.run .lockCount)) (.step .one none)
      (((s.store c).give .count (some .one)).goto .one (.run .incr)) := by
    simpa using (Move.lockCount (t := .one) (by simp) hcount :
      Move L ((s.store c).goto .one (.run .lockCount)) _ _)
  obtain ⟨bs, hfinish⟩ := run_finish (L := L) (s := s.store c) .one hcount
  have hinc : inc c = c + 1 := inc_eq (by omega) (by omega)
  have hnext : next L (c + 1) = .lockCondition := if_neg (by omega)
  have hself : (s.store (c + 1)).goto .one (.run .lockCondition) = s.store (c + 1) :=
    State.goto_self hs
  rw [State.store_mem, hinc, State.store_store, hnext, hself] at hfinish
  exact ⟨_, hpass.trans (hlock.run.trans hfinish)⟩

/-- **With the largest `int` as the limit the first thread can be left asleep**: it makes the
counter go round after the second has returned, and counts up to the halt range alone. -/
theorem exists_left_asleep_of_max {L : Limits} (hpos : 0 < L.halt1) (h₁₂ : L.halt1 ≤ L.halt2)
    (h₂ : L.halt2 < L.done) (hdone : L.done = 2 ^ 31 - 1) :
    ∃ as s, (system L).Exec as s ∧ (s.status .one).IsAsleep ∧ s.status .two = .run .ret := by
  obtain ⟨as, hr⟩ := exec_overrun hpos hdone
  have hlock : Move L overrun (.step .one none)
      ((overrun.give .count (some .one)).goto .one (.run .incr)) := .lockCount rfl rfl
  obtain ⟨bs, hround⟩ := run_finish (L := L) (s := overrun) .one rfl
  have hmem : inc overrun.mem = -2 ^ 31 := inc_max
  have hnext : next L (-2 ^ 31) = .lockCondition := if_neg (by omega)
  rw [hmem, hnext] at hround
  obtain ⟨n, hn⟩ := Int.eq_ofNat_of_zero_le (by omega : 0 ≤ L.halt1 + 2 ^ 31)
  obtain ⟨cs, hcount⟩ := run_count_one (L := L)
    (s := (overrun.store (-2 ^ 31)).goto .one (.run .lockCondition)) rfl rfl rfl (le_refl _)
    (by omega) (by omega) n (by simp only [State.goto_mem, State.store_mem]; omega)
  have hreach : -2 ^ 31 + (n : ℤ) = L.halt1 := by omega
  rw [State.goto_mem, State.store_mem, hreach] at hcount
  obtain ⟨ds, hsleep⟩ := run_to_sleep (L := L)
    (s := ((overrun.store (-2 ^ 31)).goto .one (.run .lockCondition)).store L.halt1) rfl rfl
    ⟨le_refl _, h₁₂⟩
  exact ⟨_, _, (((hr.trans hlock.run).trans hround).trans hcount).trans hsleep, trivial, rfl⟩

/-- So it is with the halt range of the program. -/
theorem left_asleep_of_max : ∃ as s, (system ⟨2 ^ 31 - 1, 3, 6⟩).Exec as s ∧
    (s.status .one).IsAsleep ∧ s.status .two = .run .ret :=
  exists_left_asleep_of_max (by decide) (by decide) (by decide) rfl

end CountHalt
