/-
**What the two counting threads print, and where they stop** (`condition_variable.c`).

The counter is printed under the mutex that protects its increment.  So the values printed are the
first numbers, as long as the counter goes up by one each time, and what has been counted is what
has been printed or is about to be (`CountHalt.Tally`).  When both threads have returned the counter
is at its limit or one above it, since they have seen the limit and could count once past it at
most.

Main definitions:

* `CountHalt.values` — the values printed, by either thread;
* `CountHalt.unprinted` — the increments of a thread that have not been printed.

Main results:

* `CountHalt.tally` — the printed values and the counter, in every reachable state;
* `CountHalt.counts_in_order` — **the values printed are 1, 2, 3, …, and the counter ends at its
  limit or one above it**, with a limit below the largest `int`;
* `CountHalt.prints_min_of_max` — with the largest `int` as the limit the smallest one is printed.
-/

import AupPrograms.CountHaltProgress

set_option relaxedAutoImplicit false
set_option autoImplicit false

namespace CountHalt

open Pthread

/-! ### The tally -/

/-- The value of a printed line. -/
def Event.value : Event → ℤ
  | .printed _ v => v

/-- The values printed by the two threads, in print order. -/
def values (es : List Event) : List ℤ := es.map Event.value

/-- The numbers from 1 to `n`. -/
def upTo (n : ℕ) : List ℤ := (List.range n).map fun i : ℕ => (i : ℤ) + 1

theorem upTo_succ (n : ℕ) : upTo (n + 1) = upTo n ++ [(n : ℤ) + 1] := by
  simp [upTo, List.range_succ]

/-- What a thread has counted and not yet printed. -/
def unprinted : Status Pc Mutex Unit → ℤ
  | .run .print => 1
  | _ => 0

/-- **The printed values and the counter.** -/
structure Tally (L : Limits) (es : List Event) (s : St) : Prop where
  /-- The values printed are the first numbers. -/
  printed : values es = upTo es.length
  /-- What is counted is printed, or about to be. -/
  count : s.mem = es.length + ∑ t, unprinted (s.status t)
  /-- Whoever has returned has seen the limit. -/
  returned : ∀ t, Returned L s.mem (s.status t)

theorem tally_start (L : Limits) : Tally L [] start where
  printed := rfl
  count := by simp [start, unprinted]
  returned t ht := by cases ht

/-- The owners do not matter. -/
theorem Tally.give {L : Limits} {es : List Event} {s : St} (h : Tally L es s) (m : Mutex)
    (o : Option Thread) : Tally L es (s.give m o) := ⟨h.1, h.2, h.3⟩

/-- A thread moves without counting or printing. -/
theorem Tally.goto {L : Limits} {es : List Event} {s : St} (h : Tally L es s) {t : Thread}
    {st : Status Pc Mutex Unit} (hun : unprinted st = unprinted (s.status t))
    (hret : Returned L s.mem st) : Tally L es (s.goto t st) where
  printed := h.printed
  count := by
    rw [State.sum_goto (fun _ st => unprinted st) s t st, State.goto_mem, h.count, hun]
    omega
  returned u := by
    rcases eq_or_ne u t with rfl | hu
    · simpa using hret
    · simpa [Function.update_of_ne hu] using h.returned u

/-- A thread increments the counter. -/
theorem Tally.incr {L : Limits} {es : List Event} {s : St} (h : Tally L es s) {t : Thread}
    (ht : s.status t = .run .incr) (hinc : inc s.mem = s.mem + 1) :
    Tally L es ((s.store (inc s.mem)).goto t (.run .print)) where
  printed := h.printed
  count := by
    have hcount := h.count
    have h₀ : unprinted (.run .incr) = 0 := rfl
    have h₁ : unprinted (.run .print) = 1 := rfl
    rw [State.sum_goto (fun _ st => unprinted st), State.goto_mem, State.store_mem,
      State.store_status, ht]
    omega
  returned u := by
    rcases eq_or_ne u t with rfl | hu
    · intro hr
      simp at hr
    · intro hr
      have hret := h.returned u (by simpa [Function.update_of_ne hu] using hr)
      rw [State.goto_mem, State.store_mem, hinc]
      exact Int.le_add_one hret

/-- A thread prints the counter, which is the next number to be printed. -/
theorem Tally.print {L : Limits} {es : List Event} {s : St} (h : Tally L es s) (ho : LockOwned s)
    {t : Thread} (ht : s.status t = .run .print) :
    Tally L (es ++ [.printed t s.mem]) (s.goto t (.run .unlockCount)) := by
  -- by mutual exclusion nobody else has anything to print
  have hother : ∀ u, u ≠ t → unprinted (s.status u) = 0 := by
    intro u hu
    cases hs : s.status u with
    | asleep c m pc | woken m pc => rfl
    | run pc =>
        cases pc with
        | print =>
            exact absurd (ho.eq (m := .count) (t := u) (u := t) (by rw [hs]; rfl)
              (by rw [ht]; rfl)) hu
        | _ => rfl
  have hsum : ∑ u, unprinted (s.status u) = 1 := by
    rw [Finset.sum_eq_single t (fun u _ hu => hother u hu) (by simp), ht]
    rfl
  have hmem : s.mem = es.length + 1 := by rw [h.count, hsum]
  constructor
  · rw [values, List.map_append, List.length_append, List.length_singleton, upTo_succ]
    rw [← h.printed, values, hmem]
    rfl
  · rw [State.sum_goto (fun _ st => unprinted st), State.goto_mem, ht, hsum, hmem]
    simp [unprinted]
  · intro u
    rcases eq_or_ne u t with rfl | hu
    · intro hr
      simp at hr
    · simpa [Function.update_of_ne hu] using h.returned u

/-- A step that prints nothing keeps the tally. -/
theorem Tally.silent {L : Limits} {es : List Event} {s s' : St} {a : Action Thread Event}
    (h : Tally L es s) (hinc : ∀ t, s.status t = .run .incr → inc s.mem = s.mem + 1)
    (hm : Move L s a s') (ha : a.event = none) : Tally L es s' := by
  have hret : ∀ pc, pc ≠ .ret → Returned L s.mem (.run pc) := fun pc hpc hr => by
    cases hr
    exact absurd rfl hpc
  -- a thread that tests holds `condition_mutex`, which it does not where it prints or returns
  have htest : ∀ pc, Pc.mutex pc = some .condition →
      unprinted (.run pc) = 0 ∧ Returned L s.mem (.run pc) := by
    intro pc hpc
    cases pc with
    | testLow | testHigh | cond | unlockCondition => exact ⟨rfl, hret _ (by decide)⟩
    | _ => cases hpc
  cases hm with
  | lockCondition hs _ | unlockCondition hs _ | lockCount hs _ | unlockCount hs _ | relock hs _ =>
      exact (h.give _ _).goto (by rw [State.give_status, hs]; rfl) (hret _ (by decide))
  | sleep hs _ =>
      exact (h.give _ _).goto (by rw [State.give_status, hs]; rfl) fun hr => by cases hr
  | @testLow t hs =>
      obtain ⟨hun, hr⟩ := htest (low L t s.mem) (mutex_low L t s.mem)
      exact h.goto (by rw [hs, hun]; rfl) hr
  | @testHigh t hs =>
      obtain ⟨hun, hr⟩ := htest (high L t s.mem) (mutex_high L t s.mem)
      exact h.goto (by rw [hs, hun]; rfl) hr
  | wake hs hu =>
      have h₁ : Tally L es (s.goto .two (.run .unlockCondition)) :=
        h.goto (by rw [hs]; rfl) (hret _ (by decide))
      have hone : (s.goto .two (.run .unlockCondition)).status .one
          = .asleep () .condition .testLow := by simpa [Function.update_of_ne] using hu
      exact h₁.goto (by rw [hone]; rfl) fun hr => by cases hr
  | lost hs _ => exact h.goto (by rw [hs]; rfl) (hret _ (by decide))
  | incr hs => exact h.incr hs (hinc _ hs)
  | print hs => cases ha
  | testDone hs =>
      refine h.goto ?_ (returned_next L s.mem)
      rw [hs]
      unfold next
      split <;> rfl
  | spurious hs => exact h.goto (by rw [hs]; rfl) fun hr => by cases hr

/-- **The tally holds in every reachable state.** -/
theorem tally {L : Limits} (hmax : L.done < 2 ^ 31 - 1) {as : List (Action Thread Event)} {s : St}
    (h : (system L).Exec as s) : Tally L (as.filterMap Action.event) s := by
  refine Lts.Exec.invariant (I := fun as s => Tally L (as.filterMap Action.event) s) ?_ ?_ h
  · rintro s rfl
    exact tally_start L
  · intro as s a s' hr ht hs
    have hm := move_of_step (shape hr) hs
    rw [List.filterMap_append]
    cases ha : a.event with
    | none => simpa [ha] using ht.silent (fun t hs => (counted hmax hr).inc_eq hmax hs) hm ha
    | some e =>
        cases hm with
        | print hpc =>
            obtain rfl := Option.some_inj.1 ha
            exact ht.print (lockOwned hr) hpc
        | _ => cases ha

/-! ### What is printed -/

/-- When both threads have returned the counter is at its limit or one above it, and all of it has
been printed. -/
theorem end_of_returned {L : Limits} (hL : 1 ≤ L.done) (hmax : L.done < 2 ^ 31 - 1)
    {as : List (Action Thread Event)} {s : St} (h : (system L).Exec as s)
    (hall : ∀ t, s.status t = .run .ret) : (s.mem = L.done ∨ s.mem = L.done + 1) ∧
      values (as.filterMap Action.event) = upTo s.mem.toNat := by
  have ht := tally hmax h
  have hlim := ht.returned .one (hall .one)
  have hbound := (counted hmax h).bounded
  have hsum : ∑ t, owing (s.status t) = 0 := Finset.sum_eq_zero fun t _ => by rw [hall t]; rfl
  have hun : ∑ t, unprinted (s.status t) = 0 :=
    Finset.sum_eq_zero fun t _ => by rw [hall t]; rfl
  have hcount := ht.count
  rw [hsum] at hbound
  rw [hun] at hcount
  refine ⟨by omega, ?_⟩
  rw [ht.printed, hcount, add_zero, Int.toNat_natCast]

/-- **No count is lost or printed twice, and the overshoot is one at most**: the values printed are
the first numbers in order, and when both threads have returned the counter has its limit or one
more and all of it has been printed. -/
theorem counts_in_order {L : Limits} (hL : 1 ≤ L.done) (hmax : L.done < 2 ^ 31 - 1)
    {as : List (Action Thread Event)} {s : St} (h : (system L).Exec as s) :
    (∃ n, values (as.filterMap Action.event) = upTo n) ∧
      ((∀ t, s.status t = .run .ret) → (s.mem = L.done ∨ s.mem = L.done + 1) ∧
        values (as.filterMap Action.event) = upTo s.mem.toNat) :=
  ⟨⟨_, (tally hmax h).printed⟩, end_of_returned hL hmax h⟩

/-- With the limit 1: the first thread has passed its test when the second counts to 1, and counts
to 2. -/
theorem exec_both : ∃ as s, (system ⟨1, 5, 6⟩).Exec as s ∧ (∀ t, s.status t = .run .ret) ∧
    s.mem = 2 := by
  obtain ⟨as₁, h₁⟩ := exec_passed (L := ⟨1, 5, 6⟩) (by decide)
  obtain ⟨as₂, h₂⟩ := run_to_incr (L := ⟨1, 5, 6⟩) (s := passed) rfl rfl rfl (Or.inl id)
  obtain ⟨as₃, h₃⟩ := run_finish (L := ⟨1, 5, 6⟩) (s := passed) .two rfl
  let s₁ : St := (passed.store 1).goto .two (.run .ret)
  have h₄ := (Move.lockCount (t := .one) (by rfl) (by rfl) : Move ⟨1, 5, 6⟩ s₁ _ _)
  obtain ⟨as₅, h₅⟩ := run_finish (L := ⟨1, 5, 6⟩) (s := s₁) .one rfl
  refine ⟨_, _, (((h₁.trans h₂).trans h₃).trans h₄.run).trans h₅, ?_, rfl⟩
  intro t
  cases t <;> rfl

/-- There the counter ends one above its limit, and 1 and 2 have been printed. -/
theorem counts_in_order_both : ∃ as s, (system ⟨1, 5, 6⟩).Exec as s ∧ s.mem = 2 ∧
    values (as.filterMap Action.event) = [1, 2] := by
  obtain ⟨as, s, hex, hall, hmem⟩ := exec_both
  obtain ⟨-, hend⟩ := counts_in_order (by decide) (by decide) hex
  refine ⟨as, s, hex, hmem, ?_⟩
  rw [(hend hall).2, hmem]
  rfl

/-- **With the largest `int` as the limit the smallest one is printed**, by the first thread after
the second has returned. -/
theorem prints_min_of_max {L : Limits} (hpos : 0 < L.halt1) (hdone : L.done = 2 ^ 31 - 1) :
    ∃ as s, (system L).Exec as s ∧ -2 ^ 31 ∈ values (as.filterMap Action.event) := by
  obtain ⟨as, hr⟩ := exec_overrun hpos hdone
  have hlock : Move L overrun (.step .one none)
      ((overrun.give .count (some .one)).goto .one (.run .incr)) := .lockCount rfl rfl
  have hincr := (Move.incr (t := .one) rfl :
    Move L ((overrun.give .count (some .one)).goto .one (.run .incr)) _ _)
  have hprint := (Move.print (t := .one) (by simp) : Move L
    ((((overrun.give .count (some .one)).goto .one (.run .incr)).store (inc overrun.mem)).goto .one
      (.run .print)) _ _)
  refine ⟨_, _, ((hr.trans hlock.run).trans hincr.run).trans hprint.run, ?_⟩
  have hmem : inc overrun.mem = -2 ^ 31 := inc_max
  simp [values, Event.value, hmem]

/-- The numbers from 1 on are positive. -/
theorem pos_of_mem_upTo {n : ℕ} {v : ℤ} (h : v ∈ upTo n) : 0 < v := by
  obtain ⟨i, -, rfl⟩ := List.mem_map.1 h
  exact Int.lt_add_one_of_le (Int.natCast_nonneg i)

/-- So the values printed are not the first numbers, with the halt range of the program. -/
theorem not_in_order_of_max : ∃ as s, (system ⟨2 ^ 31 - 1, 3, 6⟩).Exec as s ∧
    ∀ n, values (as.filterMap Action.event) ≠ upTo n := by
  obtain ⟨as, s, h, hmin⟩ := prints_min_of_max (L := ⟨2 ^ 31 - 1, 3, 6⟩) (by decide) rfl
  refine ⟨as, s, h, fun n hn => ?_⟩
  rw [hn] at hmin
  exact absurd (pos_of_mem_upTo hmin) (by decide)

end CountHalt
