/-
**When the two counting threads come to an end** (`condition_variable.c`).

With a limit below the largest `int` every run of the two threads is bounded: an increment pays for
the rest of its iteration and for the next one.  Whether a run that can go no further has ended well
is another matter.  The second thread wakes the first one up at the beginning of an iteration, when
the counter has left the halt range; if it returns before that, the first one sleeps for ever.  This
module determines for which thresholds that happens.

Main definitions:

* `CountHalt.weight` — what a thread at a program point can still pay for;
* `CountHalt.Ended` — both threads have returned, and everything counted has been printed.

Main results:

* `CountHalt.ranked` — the weights decrease along the two functions;
* `CountHalt.exists_left_asleep` — with the limit in the halt range, or just above it, some run
  leaves the first thread asleep;
* `CountHalt.ended_of_not_enabled` — with the limit elsewhere every run that stops has ended;
* `CountHalt.completes_iff` — **every run is bounded, and with which thresholds every run ends**.
-/

import AupPrograms.CountHaltPrints
import AupPrograms.PthreadRank

set_option relaxedAutoImplicit false
set_option autoImplicit false

namespace CountHalt

open Pthread

/-! ### The weights -/

/-- What a thread at a program point can still pay for before its next increment. -/
def weight (_ : Thread) : Pc → ℕ
  | .ret => 0
  | .incr => 0
  | .lockCount => 1
  | .unlockCondition => 2
  | .cond => 7
  | .testHigh => 8
  | .testLow => 9
  | .lockCondition => 10
  | .testDone => 11
  | .unlockCount => 12
  | .print => 13

/-- What the counter can still pay for: up to one increment past the limit. -/
def fund (L : Limits) (c : ℤ) : ℕ := 14 * (L.done + 1 - c).toNat

theorem ranked (L : Limits) : Ranked (code L) 3 weight where
  lock := by
    intro t pc m k hc
    cases t <;> cases pc <;> cases hc <;> decide
  unlock := by
    intro t pc m k hc
    cases t <;> cases pc <;> cases hc <;> decide
  wait := by
    intro t pc c m k hc
    cases t <;> cases pc <;> cases hc
    decide
  signal := by
    intro t pc c k hc
    cases t <;> cases pc <;> cases hc
    decide

theorem weight_low (L : Limits) (t u : Thread) (c : ℤ) : weight u (low L t c) < 9 := by
  cases t <;> simp only [low] <;> split <;> simp [weight]

theorem weight_high (L : Limits) (t u : Thread) (c : ℤ) : weight u (high L t c) < 8 := by
  cases t <;> simp only [high] <;> split <;> simp [weight]

theorem weight_next (L : Limits) (t : Thread) (c : ℤ) : weight t (next L c) < 11 := by
  simp only [next]
  split <;> simp [weight]

/-- Every access to the counter pays: an increment out of the counter. -/
theorem actPays {L : Limits} (hL : 1 ≤ L.done) (hmax : L.done < 2 ^ 31 - 1)
    {as : List (Action Thread Event)} {s : St} (h : (system L).Exec as s) :
    ActPays (code L) weight (fund L) s := by
  intro t pc f e k hs hc
  have hincr : pc = .incr → fund L (inc s.mem) + 13 < fund L s.mem := by
    rintro rfl
    have hc := counted hmax h
    have hlt := hc.mem_lt hs
    rw [hc.inc_eq hmax hs]
    simp only [fund]
    omega
  have hlow := weight_low L t t s.mem
  have hhigh := weight_high L t t s.mem
  have hnext := weight_next L t s.mem
  cases pc with
  | testLow =>
      obtain ⟨rfl, rfl⟩ : f = id ∧ k = low L t := by cases t <;> cases hc <;> exact ⟨rfl, rfl⟩
      simpa [weight] using hlow
  | testHigh =>
      obtain ⟨rfl, rfl⟩ : f = id ∧ k = high L t := by cases t <;> cases hc <;> exact ⟨rfl, rfl⟩
      simpa [weight] using hhigh
  | incr =>
      obtain ⟨rfl, rfl⟩ : f = inc ∧ k = fun _ => .print := by
        cases t <;> cases hc <;> exact ⟨rfl, rfl⟩
      simpa [weight] using hincr rfl
  | print =>
      obtain ⟨rfl, rfl⟩ : f = id ∧ k = fun _ => .unlockCount := by
        cases t <;> cases hc <;> exact ⟨rfl, rfl⟩
      simp [weight]
  | testDone =>
      obtain ⟨rfl, rfl⟩ : f = id ∧ k = next L := by cases t <;> cases hc <;> exact ⟨rfl, rfl⟩
      simpa [weight] using hnext
  | _ => cases t <;> cases hc

/-- **Every run is bounded**, up to five steps for each spurious wake-up. -/
theorem length_le {L : Limits} (hL : 1 ≤ L.done) (hmax : L.done < 2 ^ 31 - 1)
    {as : List (Action Thread Event)} {s : St} (h : (system L).Exec as s) :
    (as.length : ℤ) ≤ 14 * L.done + 34 + 5 * as.countP Action.isSpurious := by
  have hle := (ranked L).length_le (v := fund L) (fun _ _ hr => actPays hL hmax hr) h
  have hstart : rank 3 weight (fund L) start = 14 * (L.done + 1).toNat + 20 := by
    have hthreads : (Finset.univ : Finset Thread) = {.one, .two} := rfl
    simp [rank, start, rankAt, weight, fund, hthreads]
  rw [hstart] at hle
  omega

/-! ### A run that leaves the first thread asleep -/

/-- The first thread asleep, and the second one gone. -/
def LeftAsleep (s : St) : Prop := (s.status .one).IsAsleep ∧ s.status .two = .run .ret

/-- **With the limit in the halt range, or just above it, the first thread can be left asleep**: it
goes to sleep at the limit, or just before the last iteration of the second thread. -/
theorem exists_left_asleep {L : Limits} (hL : 1 ≤ L.done) (hmax : L.done < 2 ^ 31 - 1)
    (hlow : L.halt1 ≤ L.done) (h₁₂ : L.halt1 ≤ L.halt2) (hhigh : L.done ≤ L.halt2 + 1) :
    ∃ as s, (system L).Exec as s ∧ LeftAsleep s := by
  obtain ⟨n, hn⟩ : ∃ n : ℕ, (n : ℤ) = L.done - 1 := ⟨(L.done - 1).toNat, by omega⟩
  have hzero : start.mem = 0 := rfl
  obtain ⟨as, hcount⟩ := run_count (L := L) (s := start) rfl rfl rfl id (by decide) (by omega) n
    (by omega)
  rw [hzero, zero_add] at hcount
  have hinc : inc (n : ℤ) = L.done := by
    rw [inc_eq (by omega) (by omega)]
    omega
  have hret : next L L.done = .ret := if_pos (le_refl _)
  by_cases hin : L.halt1 ≤ n
  · -- it sleeps before the last iteration, which starts inside the range
    have hrange : InHalt L (n : ℤ) := ⟨hin, by omega⟩
    obtain ⟨bs, hsleep⟩ := run_to_sleep (L := L) (s := start.store n) rfl rfl hrange
    obtain ⟨cs, hlast⟩ := run_iteration (L := L)
      (s := (start.store n).goto .one (.asleep () .condition .testLow)) rfl rfl rfl
      (Or.inr hrange)
    refine ⟨_, _, ⟨start, rfl, hcount.trans (hsleep.trans hlast)⟩, ?_, ?_⟩
    · exact trivial
    · simp [hinc, hret]
  · -- it sleeps at the limit, after the other one has returned
    obtain ⟨bs, hlast⟩ := run_iteration (L := L) (s := start.store n) rfl rfl rfl (Or.inl id)
    rw [State.store_mem, State.store_store, hinc, hret] at hlast
    obtain ⟨cs, hsleep⟩ := run_to_sleep (L := L)
      (s := (start.store L.done).goto .two (.run .ret)) rfl rfl ⟨hlow, by simp; omega⟩
    exact ⟨_, _, ⟨start, rfl, hcount.trans (hlast.trans hsleep)⟩, trivial, rfl⟩

/-- From there nobody can step. -/
theorem LeftAsleep.not_enabled {L : Limits} {as : List (Action Thread Event)} {s : St}
    (h : (system L).Exec as s) (hleft : LeftAsleep s) (t : Thread) : ¬ Enabled (code L) s t := by
  rintro ⟨e, s', hs⟩
  obtain ⟨hone, htwo⟩ := hleft
  have hsh := shape h t
  cases hs with
  | relock hs _ =>
      cases t with
      | one => rw [hs] at hone; exact hone
      | two => rw [htwo] at hs; cases hs
  | lock hs hc _ | unlock hs hc _ | wait hs hc _ | wake hs hc _ | lost hs hc _ | act hs hc =>
      cases t with
      | one => rw [hs] at hone; exact hone
      | two =>
          rw [htwo] at hs
          obtain rfl := Status.run.inj hs
          cases hc

/-! ### Every other run ends -/

/-- The first thread has not found the counter in the range. -/
def Unhalted : Status Pc Mutex Unit → Prop
  | .run pc => pc ≠ .testHigh ∧ pc ≠ .cond
  | _ => False

/-- With the range above the limit the first thread never gets into a wait. -/
theorem unhalted {L : Limits} (hL : 1 ≤ L.done) (hmax : L.done < 2 ^ 31 - 1)
    (hlow : L.done < L.halt1)
    {as : List (Action Thread Event)} {s : St} (h : (system L).Exec as s) :
    Unhalted (s.status .one) := by
  refine Lts.Exec.invariant (I := fun _ s => Unhalted (s.status .one)) ?_ ?_ h
  · rintro s rfl
    simp [start, Unhalted]
  · intro as s a s' hr ih hs
    -- a thread at its first test has not passed the limit, so it is below the range
    have hmem : s.status .one = .run .testLow → s.mem < L.halt1 := by
      intro hone
      have hbound := (counted hmax hr).bounded
      have howing : owing (s.status .one) = 1 := by rw [hone]; rfl
      have hnonneg := owing_nonneg (s.status .two)
      rw [sum_threads] at hbound
      omega
    cases move_of_step (shape hr) hs with
    | @testLow t hpc =>
        cases t with
        | one =>
            have hpass : low L .one s.mem = .unlockCondition := if_neg (by have := hmem hpc; omega)
            simp [hpass, Unhalted]
        | two => simpa [Function.update_of_ne] using ih
    | @testHigh t hpc =>
        cases t with
        | one => rw [hpc] at ih; exact absurd rfl ih.1
        | two => simpa [Function.update_of_ne] using ih
    | sleep hpc _ => rw [hpc] at ih; exact absurd rfl ih.2
    | relock hpc _ => rw [hpc] at ih; exact ih.elim
    | wake _ hone => rw [hone] at ih; exact ih.elim
    | lost _ _ => simpa [Function.update_of_ne] using ih
    | spurious hpc => rw [hpc] at ih; exact ih.elim
    | @testDone t hpc =>
        cases t with
        | one =>
            have hnext : next L s.mem = .ret ∨ next L s.mem = .lockCondition := by
              simp only [next]
              split <;> simp
            rcases hnext with hnext | hnext <;> simp [hnext, Unhalted]
        | two => simpa [Function.update_of_ne] using ih
    | @lockCondition t _ _ | @unlockCondition t _ _ | @lockCount t _ _ | @incr t _ | @print t _
    | @unlockCount t _ _ =>
        cases t with
        | one => simp [Unhalted]
        | two => simpa [Function.update_of_ne] using ih

/-- With the limit outside the range, and not just above it, the first thread does not sleep once
the second has returned. -/
theorem not_left_asleep {L : Limits} (hL : 1 ≤ L.done) (hmax : L.done < 2 ^ 31 - 1)
    (hout : L.halt2 + 2 ≤ L.done ∨ L.done < L.halt1) {as : List (Action Thread Event)} {s : St}
    (h : (system L).Exec as s) : ¬ LeftAsleep s := by
  rintro ⟨hone, htwo⟩
  rcases hout with hout | hout
  · have hdoze : Dozing (s.status .one) := by
      cases hs : s.status .one with
      | asleep c m pc => trivial
      | run pc | woken m pc => rw [hs] at hone; exact hone.elim
    have hp := (waking hout hmax h).pending hdoze
    rw [htwo] at hp
    exact hp
  · have hun := unhalted hL hmax hout h
    cases hs : s.status .one with
    | run pc => rw [hs] at hone; exact hone
    | asleep c m pc | woken m pc => rw [hs] at hun; exact hun

/-- **The joined state**: both threads have returned, the counter has reached its limit or one
more, and all of it has been printed. -/
structure Ended (L : Limits) (es : List Event) (s : St) : Prop where
  returned : ∀ t, s.status t = .run .ret
  counter : s.mem = L.done ∨ s.mem = L.done + 1
  printed : values es = upTo s.mem.toNat

theorem ended_of_returned {L : Limits} (hL : 1 ≤ L.done) (hmax : L.done < 2 ^ 31 - 1)
    {as : List (Action Thread Event)} {s : St} (h : (system L).Exec as s)
    (hall : ∀ t, s.status t = .run .ret) : Ended L (as.filterMap Action.event) s := by
  obtain ⟨hcounter, hprinted⟩ := end_of_returned hL hmax h hall
  exact ⟨hall, hcounter, hprinted⟩

/-- A run that can go no further has ended, unless it leaves the first thread asleep. -/
theorem ended_of_not_enabled {L : Limits} (hL : 1 ≤ L.done) (hmax : L.done < 2 ^ 31 - 1)
    {as : List (Action Thread Event)} {s : St} (h : (system L).Exec as s)
    (hno : ∀ t, ¬ Enabled (code L) s t) (hleft : ¬ LeftAsleep s) :
    Ended L (as.filterMap Action.event) s := by
  -- an awake thread that has not returned could step, or one that it waits for
  have hret : ∀ t, ¬ (s.status t).IsAsleep → s.status t = .run .ret := by
    intro t ht
    by_contra hnot
    obtain ⟨u, hu⟩ := (lockOwned h).exists_enabled (discipline L) (flat L) ht
      fun pc hpc hexit => hnot (by rw [hpc, eq_ret_of_exit hexit])
    exact hno u hu
  have htwo : s.status .two = .run .ret := by
    refine hret .two fun hst => ?_
    have hsh := shape h .two
    cases hs : s.status .two with
    | asleep c m pc => rw [hs] at hsh; cases hsh.1
    | run pc | woken m pc => rw [hs] at hst; exact hst
  have hone : s.status .one = .run .ret := hret .one fun hst => hleft ⟨hst, htwo⟩
  exact ended_of_returned hL hmax h fun t => by cases t <;> assumption

/-- **With a limit below the largest `int`, every run is bounded, and every run that can go no
further has ended exactly when** the limit is outside the halt range and not just above it: then
both threads have returned and the numbers up to the limit, or one more, have been printed in order;
otherwise some run leaves the first thread asleep for ever. -/
theorem completes_iff {L : Limits} (hL : 1 ≤ L.done) (hmax : L.done < 2 ^ 31 - 1)
    (h₁₂ : L.halt1 ≤ L.halt2) :
    (∀ as s, (system L).Exec as s →
        (as.length : ℤ) ≤ 14 * L.done + 34 + 5 * as.countP Action.isSpurious) ∧
      ((∀ as s, (system L).Exec as s → (∀ t, ¬ Enabled (code L) s t) →
          Ended L (as.filterMap Action.event) s) ↔
        L.halt2 + 2 ≤ L.done ∨ L.done < L.halt1) := by
  refine ⟨fun as s h => length_le hL hmax h, fun hall => ?_, fun hout as s h hno => ?_⟩
  · by_contra hout
    obtain ⟨as, s, h, hleft⟩ := exists_left_asleep hL hmax (by omega) h₁₂ (by omega)
    have hend := hall as s h (hleft.not_enabled h)
    have hone := hleft.1
    rw [hend.returned .one] at hone
    exact hone
  · exact ended_of_not_enabled hL hmax h hno (not_left_asleep hL hmax hout h)

/-- With the thresholds of the program a thread can make the first step. -/
theorem completes_limits :
    (system limits).Exec [] start ∧ ∃ t, Enabled (code limits) start t := by
  have hinit : (system limits).Exec [] start := Lts.Exec.init rfl
  refine ⟨hinit, ?_⟩
  by_contra hno
  obtain ⟨-, -, hends⟩ := completes_iff (L := limits) (by decide) (by decide) (by decide)
  have hend := hends (by decide) [] start hinit (not_exists.1 hno)
  cases hend.returned .one

end CountHalt
