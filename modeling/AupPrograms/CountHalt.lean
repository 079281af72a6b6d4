/-
**Two threads that count, one of which is to halt** (`condition_variable.c`).

Both threads increment one counter, each increment under `count_mutex`.  `functionCount1` first
waits while the counter is in the halt range, `functionCount2` first signals when it is outside;
both tests are made under `condition_mutex`.  The three thresholds of the program are parameters
here.  Every reading of the counter, its increment and the `printf` are steps of their own: the two
comparisons of a test read the counter one after the other, and the exit test reads it under no
mutex.

The test that ends a thread reads the counter outside `count_mutex`, so a thread can be anywhere in
its loop when the other one reaches the limit.  It can still increment the counter once from there,
but not twice: before the second increment it would have to pass the test.  So the counter, together
with what the threads can still count before their next test, is at most one above the limit
(`CountHalt.Counted`); it stays in its type when the limit is below the largest `int`.

Main definitions:

* `CountHalt.inc` — the increment of an `int`;
* `CountHalt.functionCount1`, `CountHalt.functionCount2` — the two functions;
* `CountHalt.system` — the two threads running them;
* `CountHalt.Move` — what a step of the system can be;
* `CountHalt.Halted` — the first thread neither increments nor has printed inside the halt range;
* `CountHalt.Overtakes` — the step that breaks it: the second thread raises the counter to the lower
  threshold while the first stands between its test and `count_mutex`;
* `CountHalt.owing` — the increments that a thread can still make before it tests for the limit.

Main results:

* `CountHalt.move_of_step` — the inversion of a step;
* `CountHalt.counted` — the bound on the counter, in every reachable state;
* `CountHalt.not_halted_of_overtakes` — every run that overtakes can go on to a violation;
* `CountHalt.alwaysHalted_iff` — **without overtaking the first thread is halted**, and it is so in
  *every* run only when the lower threshold is not positive.
-/

import AupPrograms.CInt
import AupPrograms.Pthread

set_option relaxedAutoImplicit false
set_option autoImplicit false

namespace CountHalt

open Pthread

/-! ### The program -/

/-- `COUNT_DONE`, `COUNT_HALT1` and `COUNT_HALT2`. -/
structure Limits where
  done : ℤ
  halt1 : ℤ
  halt2 : ℤ

/-- The two threads. -/
inductive Thread
  | one
  | two
  deriving DecidableEq

/-- `count_mutex` and `condition_mutex`. -/
inductive Mutex
  | count
  | condition
  deriving DecidableEq

/-- The program points of either function; at `cond` the first waits and the second signals. -/
inductive Pc
  | lockCondition
  | testLow
  | testHigh
  | cond
  | unlockCondition
  | lockCount
  | incr
  | print
  | unlockCount
  | testDone
  | ret
  deriving DecidableEq

/-- A line printed: `Counter value functionCount1: v`, or the same of the other thread. -/
inductive Event
  | printed (t : Thread) (v : ℤ)
  deriving DecidableEq

/-- The instructions of either thread; the shared memory is the counter. -/
abbrev Code := Pc → Instr Pc ℤ Mutex Unit Event

/-- Where a thread goes after comparing the counter with `COUNT_HALT1`. -/
def low (L : Limits) : Thread → ℤ → Pc
  | .one, c => if c ≥ L.halt1 then .testHigh else .unlockCondition
  | .two, c => if c < L.halt1 then .cond else .testHigh

/-- Where a thread goes after comparing the counter with `COUNT_HALT2`. -/
def high (L : Limits) : Thread → ℤ → Pc
  | .one, c => if c ≤ L.halt2 then .cond else .unlockCondition
  | .two, c => if c > L.halt2 then .cond else .unlockCondition

/-- Where a thread goes after comparing the counter with `COUNT_DONE`. -/
def next (L : Limits) (c : ℤ) : Pc := if c ≥ L.done then .ret else .lockCondition

/-- `count++` of an `int`.  C does not say what comes after the largest one; here the counter goes
round to the smallest. -/
def inc (c : ℤ) : ℤ := CInt.wrap 4 (c + 1)

/-- The loop common to the two functions, up to what thread `t` does on the condition variable. -/
def functionCount (L : Limits) (t : Thread) (cond : Instr Pc ℤ Mutex Unit Event) : Code
  | .lockCondition => .lock .condition .testLow
  | .testLow => .act id (fun _ => none) (low L t)
  | .testHigh => .act id (fun _ => none) (high L t)
  | .cond => cond
  | .unlockCondition => .unlock .condition .lockCount
  | .lockCount => .lock .count .incr
  | .incr => .act inc (fun _ => none) fun _ => .print
  | .print => .act id (fun c => some (.printed t c)) fun _ => .unlockCount
  | .unlockCount => .unlock .count .testDone
  | .testDone => .act id (fun _ => none) (next L)
  | .ret => .exit

/-- `functionCount1`: wait `while (count >= COUNT_HALT1 && count <= COUNT_HALT2)`. -/
def functionCount1 (L : Limits) : Code :=
  functionCount L .one (.wait () .condition .testLow)

/-- `functionCount2`: signal `if (count < COUNT_HALT1 || count > COUNT_HALT2)`. -/
def functionCount2 (L : Limits) : Code :=
  functionCount L .two (.signal () .unlockCondition)

/-- What each thread runs. -/
def code (L : Limits) : Thread → Code
  | .one => functionCount1 L
  | .two => functionCount2 L

/-- The states of the system. -/
abbrev St := State Thread Pc ℤ Mutex Unit

/-- `main`: the counter is zero and both threads are created. -/
def start : St where
  status _ := .run .lockCondition
  owner _ := none
  mem := 0

/-- The two threads. -/
def system (L : Limits) : Lts St (Action Thread Event) := Pthread.system (code L) start

/-! ### The mutexes -/

/-- The mutex held at a program point. -/
def Pc.mutex : Pc → Option Mutex
  | .testLow | .testHigh | .cond | .unlockCondition => some .condition
  | .incr | .print | .unlockCount => some .count
  | .lockCondition | .lockCount | .testDone | .ret => none

/-- `condition_mutex` is held throughout the test. -/
@[simp] theorem mutex_low (L : Limits) (t : Thread) (c : ℤ) :
    (low L t c).mutex = some .condition := by
  cases t <;> simp only [low] <;> split <;> rfl

@[simp] theorem mutex_high (L : Limits) (t : Thread) (c : ℤ) :
    (high L t c).mutex = some .condition := by
  cases t <;> simp only [high] <;> split <;> rfl

@[simp] theorem mutex_next (L : Limits) (c : ℤ) : (next L c).mutex = none := by
  simp only [next]
  split <;> rfl

theorem discipline (L : Limits) : Discipline (code L) fun _ pc m => pc.mutex = some m where
  lock := by
    intro t pc m k hc m'
    cases t <;> cases pc <;> cases hc <;> cases m' <;> decide
  unlock := by
    intro t pc m k hc
    cases t <;> cases pc <;> cases hc <;>
      exact ⟨rfl, fun m' => by cases m' <;> decide⟩
  wait := by
    intro t pc c m k hc
    cases t <;> cases pc <;> cases hc
    exact ⟨rfl, fun m' => Iff.rfl⟩
  signal := by
    intro t pc c k hc m'
    cases t <;> cases pc <;> cases hc
    exact Iff.rfl
  act := by
    intro t pc f e k hc g m'
    have hk : (k g).mutex = pc.mutex := by
      cases t <;> cases pc <;> cases hc <;>
        first | rfl | exact mutex_low L _ g | exact mutex_high L _ g | exact mutex_next L g
    rw [hk]

/-- The mutexes are owned by the threads that stand where they are held. -/
abbrev LockOwned (s : St) : Prop := Owned (fun _ pc m => Pc.mutex pc = some m) s

theorem lockOwned {L : Limits} {as : List (Action Thread Event)} {s : St}
    (h : (system L).Exec as s) : LockOwned s := by
  refine owned (discipline L) ⟨?_, ?_⟩ h
  · simp [start, heldAt, Pc.mutex]
  · simp [start, Returns]

/-! ### The steps -/

/-- Where a thread can stand: the second never waits, the first returns to its test. -/
def Shape : Thread → Status Pc Mutex Unit → Prop
  | _, .run _ => True
  | t, .asleep _ m pc | t, .woken m pc => t = .one ∧ m = .condition ∧ pc = .testLow

/-- **What a step of the system can be**, given where the threads can stand. -/
inductive Move (L : Limits) (s : St) : Action Thread Event → St → Prop
  | lockCondition {t : Thread} (h : s.status t = .run .lockCondition)
      (ho : s.owner .condition = none) :
      Move L s (.step t none) ((s.give .condition (some t)).goto t (.run .testLow))
  | testLow {t : Thread} (h : s.status t = .run .testLow) :
      Move L s (.step t none) (s.goto t (.run (low L t s.mem)))
  | testHigh {t : Thread} (h : s.status t = .run .testHigh) :
      Move L s (.step t none) (s.goto t (.run (high L t s.mem)))
  | sleep (h : s.status .one = .run .cond) (ho : s.owner .condition = some .one) :
      Move L s (.step .one none)
        ((s.give .condition none).goto .one (.asleep () .condition .testLow))
  | relock (h : s.status .one = .woken .condition .testLow) (ho : s.owner .condition = none) :
      Move L s (.step .one none) ((s.give .condition (some .one)).goto .one (.run .testLow))
  | wake (h : s.status .two = .run .cond) (hu : s.status .one = .asleep () .condition .testLow) :
      Move L s (.step .two none)
        ((s.goto .two (.run .unlockCondition)).goto .one (.woken .condition .testLow))
  | lost (h : s.status .two = .run .cond) (hn : ¬ (s.status .one).IsAsleep) :
      Move L s (.step .two none) (s.goto .two (.run .unlockCondition))
  | unlockCondition {t : Thread} (h : s.status t = .run .unlockCondition)
      (ho : s.owner .condition = some t) :
      Move L s (.step t none) ((s.give .condition none).goto t (.run .lockCount))
  | lockCount {t : Thread} (h : s.status t = .run .lockCount) (ho : s.owner .count = none) :
      Move L s (.step t none) ((s.give .count (some t)).goto t (.run .incr))
  | incr {t : Thread} (h : s.status t = .run .incr) :
      Move L s (.step t none) ((s.store (inc s.mem)).goto t (.run .print))
  | print {t : Thread} (h : s.status t = .run .print) :
      Move L s (.step t (some (.printed t s.mem))) (s.goto t (.run .unlockCount))
  | unlockCount {t : Thread} (h : s.status t = .run .unlockCount)
      (ho : s.owner .count = some t) :
      Move L s (.step t none) ((s.give .count none).goto t (.run .testDone))
  | testDone {t : Thread} (h : s.status t = .run .testDone) :
      Move L s (.step t none) (s.goto t (.run (next L s.mem)))
  | spurious (h : s.status .one = .asleep () .condition .testLow) :
      Move L s (.spurious .one) (s.goto .one (.woken .condition .testLow))

/-- The inversion of a step. -/
theorem move_of_step {L : Limits} {s s' : St} {a : Action Thread Event}
    (hsh : ∀ t, Shape t (s.status t)) (h : (system L).step s a s') : Move L s a s' := by
  cases h with
  | @lock t pc k m hs hc ho =>
      cases t <;> cases pc <;> cases hc
      exacts [.lockCondition hs ho, .lockCount hs ho, .lockCondition hs ho, .lockCount hs ho]
  | @unlock t pc k m hs hc ho =>
      cases t <;> cases pc <;> cases hc
      exacts [.unlockCondition hs ho, .unlockCount hs ho, .unlockCondition hs ho,
        .unlockCount hs ho]
  | @wait t pc k c m hs hc ho =>
      cases t <;> cases pc <;> cases hc
      exact .sleep hs ho
  | @relock t pc m hs ho =>
      have hsh := hsh t
      rw [hs] at hsh
      obtain ⟨rfl, rfl, rfl⟩ := hsh
      exact .relock hs ho
  | @wake t u pc k pc' c m hs hc hu =>
      have hsh := hsh u
      rw [hu] at hsh
      obtain ⟨rfl, rfl, rfl⟩ := hsh
      cases t <;> cases pc <;> cases hc
      exact .wake hs hu
  | @lost t pc k c hs hc hn =>
      cases t <;> cases pc <;> cases hc
      refine .lost hs fun hst => ?_
      cases hone : s.status .one with
      | run pc | woken m pc => rw [hone] at hst; exact hst
      | asleep c m pc => exact hn .one m pc hone
  | @act t pc f e k hs hc =>
      cases t <;> cases pc <;> cases hc
      exacts [.testLow hs, .testHigh hs, .incr hs, .print hs, .testDone hs, .testLow hs,
        .testHigh hs, .incr hs, .print hs, .testDone hs]
  | @spurious t pc c m hs =>
      have hsh := hsh t
      rw [hs] at hsh
      obtain ⟨rfl, rfl, rfl⟩ := hsh
      exact .spurious hs

/-- Every move is a step. -/
theorem step_of_move {L : Limits} {s s' : St} {a : Action Thread Event} (h : Move L s a s') :
    (system L).step s a s' := by
  cases h with
  | @lockCondition t hs ho => cases t <;> exact Step.lock hs rfl ho
  | @testLow t hs =>
      have hc : code L t .testLow = .act id (fun _ => none) (low L t) := by cases t <;> rfl
      exact Step.act hs hc
  | @testHigh t hs =>
      have hc : code L t .testHigh = .act id (fun _ => none) (high L t) := by cases t <;> rfl
      exact Step.act hs hc
  | sleep hs ho => exact Step.wait hs rfl ho
  | relock hs ho => exact Step.relock hs ho
  | wake hs hu => exact Step.wake hs rfl hu
  | lost hs hn =>
      refine Step.lost hs rfl fun u m pc hu => ?_
      cases u with
      | one => exact hn (by rw [hu]; trivial)
      | two => rw [hs] at hu; cases hu
  | @unlockCondition t hs ho => cases t <;> exact Step.unlock hs rfl ho
  | @lockCount t hs ho => cases t <;> exact Step.lock hs rfl ho
  | @incr t hs =>
      have hc : code L t .incr = .act inc (fun _ => none) fun _ => .print := by cases t <;> rfl
      exact Step.act hs hc
  | @print t hs =>
      have hc : code L t .print = .act id (fun c => some (.printed t c)) fun _ => .unlockCount := by
        cases t <;> rfl
      exact Step.act hs hc
  | @unlockCount t hs ho => cases t <;> exact Step.unlock hs rfl ho
  | @testDone t hs =>
      have hc : code L t .testDone = .act id (fun _ => none) (next L) := by cases t <;> rfl
      exact Step.act hs hc
  | spurious hs => exact Step.spurious hs

theorem Move.run {L : Limits} {s s' : St} {a : Action Thread Event} (h : Move L s a s') :
    (system L).Run s [a] s' := Lts.Run.single (step_of_move h)

/-- A thread that moves to where it can stand. -/
theorem Shape.goto {s : St} (h : ∀ u, Shape u (s.status u)) {t : Thread}
    {st : Status Pc Mutex Unit} (hst : Shape t st) : ∀ u, Shape u ((s.goto t st).status u) := by
  intro u
  rcases eq_or_ne u t with rfl | hu
  · simpa using hst
  · simpa [Function.update_of_ne hu] using h u

theorem shape {L : Limits} {as : List (Action Thread Event)} {s : St}
    (h : (system L).Exec as s) : ∀ t, Shape t (s.status t) := by
  refine Lts.Exec.state_invariant (I := fun s => ∀ t, Shape t (s.status t)) ?_ ?_ h
  · rintro s rfl t
    exact trivial
  · intro s a s' hsh hs
    cases move_of_step hsh hs with
    | sleep | relock | spurious => exact Shape.goto (s := _) hsh (by simp [Shape])
    | wake =>
        have hrun : Shape .two (.run .unlockCondition) := trivial
        exact Shape.goto (Shape.goto hsh hrun) ⟨rfl, rfl, rfl⟩
    | _ => exact Shape.goto (s := _) hsh trivial

/-! ### The counter -/

/-- Below the largest `int` the counter goes up by one. -/
theorem inc_eq {c : ℤ} (hlo : -2 ^ 31 ≤ c) (hhi : c < 2 ^ 31 - 1) : inc c = c + 1 :=
  CInt.wrap_eq_self (by omega) (by omega)

/-- From there it goes round. -/
theorem inc_max : inc (2 ^ 31 - 1) = -2 ^ 31 := by decide

/-- What is counted is an `int`. -/
theorem inc_int (c : ℤ) : -2 ^ 31 ≤ inc c ∧ inc c < 2 ^ 31 := by
  have hlo := CInt.le_wrap 4 (c + 1)
  have hhi := CInt.wrap_lt 4 (c + 1)
  unfold inc
  omega

/-- The counter is an `int`. -/
theorem mem_int {L : Limits} {as : List (Action Thread Event)} {s : St}
    (h : (system L).Exec as s) : -2 ^ 31 ≤ s.mem ∧ s.mem < 2 ^ 31 := by
  refine Lts.Exec.invariant (I := fun _ s => -2 ^ 31 ≤ s.mem ∧ s.mem < 2 ^ 31) ?_ ?_ h
  · rintro s rfl
    exact ⟨by decide, by decide⟩
  · intro as s a s' hr hmem hs
    cases move_of_step (shape hr) hs with
    | incr _ => exact inc_int s.mem
    | _ => exact hmem

instance : Fintype Thread := ⟨{.one, .two}, fun t => by cases t <;> decide⟩

/-- A sum over the two threads. -/
theorem sum_threads (f : Thread → ℤ) : ∑ t, f t = f .one + f .two :=
  Finset.sum_pair (by decide)

/-- What a thread can still count before it tests for the limit. -/
def owing : Status Pc Mutex Unit → ℤ
  | .run .print | .run .unlockCount | .run .testDone | .run .ret => 0
  | _ => 1

theorem owing_nonneg (st : Status Pc Mutex Unit) : 0 ≤ owing st := by
  unfold owing
  split <;> decide

theorem owing_le (st : Status Pc Mutex Unit) : owing st ≤ 1 := by
  unfold owing
  split <;> decide

/-- **The counter, with what the threads can still count before their next test**, is at most one
above the limit, or two if the limit is lower than that. -/
structure Counted (L : Limits) (s : St) : Prop where
  nonneg : 0 ≤ s.mem
  bounded : s.mem + ∑ t, owing (s.status t) ≤ max (L.done + 1) 2

/-- The owners do not matter. -/
theorem Counted.give {L : Limits} {s : St} (h : Counted L s) (m : Mutex) (o : Option Thread) :
    Counted L (s.give m o) := ⟨h.nonneg, h.bounded⟩

/-- A thread moves without counting. -/
theorem Counted.goto {L : Limits} {s : St} (h : Counted L s) {t : Thread}
    {st : Status Pc Mutex Unit} (hle : owing st ≤ owing (s.status t)) :
    Counted L (s.goto t st) := by
  refine ⟨h.nonneg, ?_⟩
  have hbound := h.bounded
  rw [State.sum_goto (fun _ st => owing st) s t st, State.goto_mem]
  omega

/-- A thread about to count finds the limit not passed. -/
theorem Counted.mem_lt {L : Limits} {s : St} (h : Counted L s) {t : Thread}
    (ht : s.status t = .run .incr) : s.mem < max (L.done + 1) 2 := by
  have hbound := h.bounded
  have hone : owing (s.status t) = 1 := by rw [ht]; rfl
  have h₁ := owing_nonneg (s.status .one)
  have h₂ := owing_nonneg (s.status .two)
  rw [sum_threads] at hbound
  cases t <;> omega

/-- So the counter is not the largest `int`, and goes up by one. -/
theorem Counted.inc_eq {L : Limits} (hmax : L.done < 2 ^ 31 - 1) {s : St} (h : Counted L s)
    {t : Thread} (ht : s.status t = .run .incr) : inc s.mem = s.mem + 1 := by
  have hlo := h.nonneg
  have hlt := h.mem_lt ht
  exact CountHalt.inc_eq (by omega) (by omega)

/-- A step keeps the bound: a thread that goes on to another iteration has found the counter below
the limit. -/
theorem Counted.step {L : Limits} (hmax : L.done < 2 ^ 31 - 1) {s s' : St}
    {a : Action Thread Event} (h : Counted L s) (hm : Move L s a s') : Counted L s' := by
  cases hm with
  | lockCondition hs _ | unlockCondition hs _ | lockCount hs _ | unlockCount hs _ | sleep hs _
  | relock hs _ =>
      exact (h.give _ _).goto (by rw [State.give_status, hs]; exact le_refl _)
  | testLow hs | testHigh hs => exact h.goto (by rw [hs]; exact owing_le _)
  | lost hs _ | print hs | spurious hs => exact h.goto (by rw [hs]; exact le_refl _)
  | wake hs hu =>
      have h₁ : Counted L (s.goto .two (.run .unlockCondition)) :=
        h.goto (by rw [hs]; exact le_refl _)
      have hone : (s.goto .two (.run .unlockCondition)).status .one
          = .asleep () .condition .testLow := by simpa [Function.update_of_ne] using hu
      exact h₁.goto (by rw [hone]; exact le_refl _)
  | @incr t hs =>
      have hinc := h.inc_eq hmax hs
      have hlo := h.nonneg
      have hbound := h.bounded
      have h₀ : owing (.run .incr) = 1 := rfl
      have h₁ : owing (.run .print) = 0 := rfl
      refine ⟨?_, ?_⟩
      · rw [State.goto_mem, State.store_mem]
        omega
      · rw [State.sum_goto (fun _ st => owing st), State.goto_mem, State.store_mem,
          State.store_status, hs]
        omega
  | @testDone t hs =>
      unfold next
      split
      · exact h.goto (by rw [hs]; exact le_refl _)
      · -- below the limit there is room for one increment of each thread
        have h₁ := owing_le ((s.goto t (.run .lockCondition)).status .one)
        have h₂ := owing_le ((s.goto t (.run .lockCondition)).status .two)
        refine ⟨h.nonneg, ?_⟩
        rw [sum_threads, State.goto_mem]
        omega

/-- **The bound holds in every reachable state**, as long as the limit is below the largest
`int`. -/
theorem counted {L : Limits} (hmax : L.done < 2 ^ 31 - 1) {as : List (Action Thread Event)} {s : St}
    (h : (system L).Exec as s) : Counted L s := by
  refine Lts.Exec.invariant (I := fun _ s => Counted L s) ?_ ?_ h
  · rintro s rfl
    have hsum : ∑ t, owing (start.status t) = 2 := rfl
    refine ⟨le_refl _, ?_⟩
    rw [hsum]
    exact le_max_right _ _
  · intro as s a s' hr hc hs
    exact hc.step hmax (move_of_step (shape hr) hs)

/-! ### The halt range -/

/-- The counter is in the halt range. -/
def InHalt (L : Limits) (c : ℤ) : Prop := L.halt1 ≤ c ∧ c ≤ L.halt2

/-- **The first thread is halted**: it is not about to increment a counter in the halt range, and
has not printed a value that comes from there. -/
structure Halted (L : Limits) (as : List (Action Thread Event)) (s : St) : Prop where
  incr : s.status .one = .run .incr → ¬ InHalt L s.mem
  printed : ∀ v, .printed .one v ∈ as.filterMap Action.event →
    ¬ (L.halt1 + 1 ≤ v ∧ v ≤ L.halt2 + 1)

/-- In every run of `T` the first thread is halted. -/
def AlwaysHalted (L : Limits) (T : Lts St (Action Thread Event)) : Prop :=
  ∀ as s, T.Exec as s → Halted L as s

/-- **The step that breaks it**: the second thread raises the counter to the lower threshold while
the first stands between its test and `count_mutex`. -/
structure Overtakes (L : Limits) (s : St) (a : Action Thread Event) : Prop where
  step : a = .step .two none
  incr : s.status .two = .run .incr
  reaches : inc s.mem = L.halt1
  between : s.status .one = .run .unlockCondition ∨ s.status .one = .run .lockCount

/-- What the first thread can rely on about the counter `c`, as long as nothing overtakes it. -/
def Clear (L : Limits) (c : ℤ) : Status Pc Mutex Unit → Prop
  | .run .unlockCondition | .run .lockCount | .run .incr => ¬ InHalt L c
  | .run .print => ¬ (L.halt1 + 1 ≤ c ∧ c ≤ L.halt2 + 1)
  | _ => True

/-- Nothing is known at the head of the loop. -/
theorem clear_next (L : Limits) (c : ℤ) : Clear L c (.run (next L c)) := by
  unfold next
  split <;> trivial

/-- The test of the first thread establishes what it relies on. -/
theorem clear_low (L : Limits) (c : ℤ) : Clear L c (.run (low L .one c)) := by
  simp only [low]
  split
  · trivial
  · rename_i hlow
    exact fun hin => hlow hin.1

theorem clear_high {L : Limits} {c : ℤ} : Clear L c (.run (high L .one c)) := by
  simp only [high]
  split
  · trivial
  · rename_i hhigh
    exact fun hin => hhigh hin.2

/-- The next value of a counter `c`: one more, or the smallest `int`, which is not above the lower
threshold. -/
def Rises (L : Limits) (c : ℤ) : Prop := inc c = c + 1 ∨ inc c = -2 ^ 31 ∧ -2 ^ 31 ≤ L.halt1

/-- The lower threshold is an `int`, or the counter does not reach the largest one. -/
theorem rises {L : Limits} (h₀ : -2 ^ 31 ≤ L.halt1 ∨ L.done < 2 ^ 31 - 1)
    {as : List (Action Thread Event)} {s : St} (h : (system L).Exec as s) {t : Thread}
    (ht : s.status t = .run .incr) : Rises L s.mem := by
  rcases h₀ with hlow | hmax
  · obtain ⟨hlo, hhi⟩ := mem_int h
    rcases eq_or_ne s.mem (2 ^ 31 - 1) with heq | hne
    · exact Or.inr ⟨by rw [heq, inc_max], hlow⟩
    · exact Or.inl (inc_eq hlo (by omega))
  · exact Or.inl ((counted hmax h).inc_eq hmax ht)

/-- The second thread increments: it can only spoil the test by entering the range from below. -/
theorem Clear.incr_two {L : Limits} {s : St} (ho : LockOwned s) (hinc : Rises L s.mem)
    (h : Clear L s.mem (s.status .one)) (htwo : s.status .two = .run .incr)
    (hn : ¬ Overtakes L s (.step .two none)) : Clear L (inc s.mem) (s.status .one) := by
  -- the second thread holds `count_mutex`
  have hmutex : ∀ pc, s.status .one = .run pc → pc.mutex ≠ some .count := fun pc hpc hheld =>
    absurd (ho.eq (m := .count) (t := .one) (u := .two) (by rw [hpc]; exact hheld)
      (by rw [htwo]; rfl)) (by decide)
  -- one increment enters the range at its lower threshold only
  have hbelow : ¬ InHalt L s.mem → inc s.mem ≠ L.halt1 → ¬ InHalt L (inc s.mem) := by
    unfold InHalt
    rcases hinc with hinc | ⟨hinc, hlow⟩ <;> omega
  cases hone : s.status .one with
  | asleep c m pc | woken m pc => trivial
  | run pc =>
      rw [hone] at h
      have hpc := hmutex pc hone
      cases pc with
      | unlockCondition =>
          exact hbelow h fun hreach => hn ⟨rfl, htwo, hreach, Or.inl hone⟩
      | lockCount => exact hbelow h fun hreach => hn ⟨rfl, htwo, hreach, Or.inr hone⟩
      | incr | print => exact absurd rfl hpc
      | _ => trivial

/-- A step that does not overtake keeps what the first thread relies on. -/
theorem Clear.step {L : Limits} {s s' : St} {a : Action Thread Event} (ho : LockOwned s)
    (hinc : ∀ t, s.status t = .run .incr → Rises L s.mem) (h : Clear L s.mem (s.status .one))
    (hm : Move L s a s') (hn : ¬ Overtakes L s a) : Clear L s'.mem (s'.status .one) := by
  cases hm with
  | @lockCondition t hs _ => cases t <;> trivial
  | @testLow t hs => cases t <;> first | exact clear_low L s.mem | exact h
  | @testHigh t hs => cases t <;> first | exact clear_high | exact h
  | sleep _ _ | relock _ _ | wake _ _ | spurious _ => trivial
  | lost hs _ => exact h
  | @unlockCondition t hs _ =>
      cases t with
      | one => rw [hs] at h; exact h
      | two => exact h
  | @lockCount t hs _ =>
      cases t with
      | one => rw [hs] at h; exact h
      | two => exact h
  | @incr t hs =>
      cases t with
      | one =>
          rw [hs] at h
          simp only [Clear, InHalt] at h
          have hprint : ¬ (L.halt1 + 1 ≤ inc s.mem ∧ inc s.mem ≤ L.halt2 + 1) := by
            rcases hinc .one hs with hinc | ⟨hinc, hlow⟩ <;> omega
          simpa [Clear] using hprint
      | two => exact h.incr_two ho (hinc .two hs) hs hn
  | @print t hs => cases t <;> trivial
  | @unlockCount t hs _ => cases t <;> trivial
  | @testDone t hs => cases t <;> first | exact clear_next L s.mem | exact h

/-- **Without overtaking the first thread is halted.** -/
theorem alwaysHalted_restrict {L : Limits} (h₀ : -2 ^ 31 ≤ L.halt1 ∨ L.done < 2 ^ 31 - 1) :
    AlwaysHalted L ((system L).restrict fun s a => ¬ Overtakes L s a) := by
  intro as s hr
  have hinv : Clear L s.mem (s.status .one) ∧ Halted L as s := by
    refine Lts.Exec.invariant
      (I := fun as s => Clear L s.mem (s.status .one) ∧ Halted L as s) ?_ ?_ hr
    · rintro s rfl
      exact ⟨trivial, fun hs => by simp [start] at hs, by simp⟩
    · rintro as s a s' hr ⟨hclear, hhalt⟩ ⟨hs, hn⟩
      have hm := move_of_step (shape hr.of_restrict) hs
      have hclear' := hclear.step (lockOwned hr.of_restrict)
        (fun t ht => rises h₀ hr.of_restrict ht) hm hn
      refine ⟨hclear', fun hone => by rw [hone] at hclear'; exact hclear', fun v hv => ?_⟩
      rw [List.filterMap_append, List.mem_append] at hv
      rcases hv with hv | hv
      · exact hhalt.printed v hv
      · -- what is printed is the counter after an increment
        cases hm with
        | @print t ht =>
            obtain ⟨rfl, rfl⟩ : Thread.one = t ∧ v = s.mem := by simpa using hv
            rw [ht] at hclear
            exact hclear
        | _ => simp at hv
  exact hinv.2

/-! ### Runs -/

/-- A thread that holds `count_mutex` counts, prints and tests for the limit. -/
theorem run_finish {L : Limits} {s : St} (t : Thread) (hcount : s.owner .count = none) :
    ∃ as, (system L).Run ((s.give .count (some t)).goto t (.run .incr)) as
      ((s.store (inc s.mem)).goto t (.run (next L (inc s.mem)))) := by
  have h₁ : Move L ((s.give .count (some t)).goto t (.run .incr)) (.step t none)
      (((s.store (inc s.mem)).give .count (some t)).goto t (.run .print)) := by
    simpa using (Move.incr (t := t) (by simp) :
      Move L ((s.give .count (some t)).goto t (.run .incr)) _ _)
  have h₂ : Move L (((s.store (inc s.mem)).give .count (some t)).goto t (.run .print))
      (.step t (some (.printed t (inc s.mem))))
      (((s.store (inc s.mem)).give .count (some t)).goto t (.run .unlockCount)) := by
    simpa using (Move.print (t := t) (by simp) :
      Move L (((s.store (inc s.mem)).give .count (some t)).goto t (.run .print)) _ _)
  have h₃ : Move L (((s.store (inc s.mem)).give .count (some t)).goto t (.run .unlockCount))
      (.step t none) ((s.store (inc s.mem)).goto t (.run .testDone)) := by
    have hfree : (s.store (inc s.mem)).give .count none = s.store (inc s.mem) :=
      State.give_self hcount
    simpa [hfree] using (Move.unlockCount (t := t) (by simp) (by simp) :
      Move L (((s.store (inc s.mem)).give .count (some t)).goto t (.run .unlockCount)) _ _)
  have h₄ : Move L ((s.store (inc s.mem)).goto t (.run .testDone)) (.step t none)
      ((s.store (inc s.mem)).goto t (.run (next L (inc s.mem)))) := by
    simpa using (Move.testDone (t := t) (by simp) :
      Move L ((s.store (inc s.mem)).goto t (.run .testDone)) _ _)
  exact ⟨_, h₁.run.trans (h₂.run.trans (h₃.run.trans h₄.run))⟩

/-- The second thread makes its test without waking anybody up: there is nobody asleep, or it does
not signal. -/
theorem run_test {L : Limits} {s : St} (hs : s.status .two = .run .testLow)
    (hone : ¬ (s.status .one).IsAsleep ∨ InHalt L s.mem) :
    ∃ as, (system L).Run s as (s.goto .two (.run .unlockCondition)) := by
  have hlow : Move L s (.step .two none) (s.goto .two (.run (low L .two s.mem))) := .testLow hs
  have hhigh : Move L (s.goto .two (.run .testHigh)) (.step .two none)
      (s.goto .two (.run (high L .two s.mem))) := by
    simpa using (Move.testHigh (t := .two) (by simp) : Move L (s.goto .two (.run .testHigh)) _ _)
  have hlost : ¬ (s.status .one).IsAsleep →
      Move L (s.goto .two (.run .cond)) (.step .two none) (s.goto .two (.run .unlockCondition)) :=
    fun hawake => by
      simpa using (Move.lost (by simp) (by simpa using hawake) :
        Move L (s.goto .two (.run .cond)) _ _)
  by_cases hin : InHalt L s.mem
  · have hpass : low L .two s.mem = .testHigh := if_neg (not_lt.2 hin.1)
    have hpass' : high L .two s.mem = .unlockCondition := if_neg (not_lt.2 hin.2)
    rw [hpass] at hlow
    rw [hpass'] at hhigh
    exact ⟨_, hlow.run.trans hhigh.run⟩
  · have hawake := hone.resolve_right hin
    by_cases hbelow : s.mem < L.halt1
    · have hpass : low L .two s.mem = .cond := if_pos hbelow
      rw [hpass] at hlow
      exact ⟨_, hlow.run.trans (hlost hawake).run⟩
    · have hpass : low L .two s.mem = .testHigh := if_neg hbelow
      have hpass' : high L .two s.mem = .cond :=
        if_pos (not_le.1 fun hle => hin ⟨not_lt.1 hbelow, hle⟩)
      rw [hpass] at hlow
      rw [hpass'] at hhigh
      exact ⟨_, hlow.run.trans (hhigh.run.trans (hlost hawake).run)⟩

/-- The second thread makes its way to the increment, without waking anybody up. -/
theorem run_to_incr {L : Limits} {s : St} (hs : s.status .two = .run .lockCondition)
    (hcond : s.owner .condition = none) (hcount : s.owner .count = none)
    (hone : ¬ (s.status .one).IsAsleep ∨ InHalt L s.mem) :
    ∃ as, (system L).Run s as ((s.give .count (some .two)).goto .two (.run .incr)) := by
  have h₁ : Move L s (.step .two none)
      ((s.give .condition (some .two)).goto .two (.run .testLow)) := .lockCondition hs hcond
  obtain ⟨as, h₂⟩ := run_test (L := L)
    (s := (s.give .condition (some .two)).goto .two (.run .testLow)) (by simp) (by simpa using hone)
  rw [State.goto_goto] at h₂
  have h₃ : Move L ((s.give .condition (some .two)).goto .two (.run .unlockCondition))
      (.step .two none) (s.goto .two (.run .lockCount)) := by
    simpa [State.give_self hcond] using (Move.unlockCondition (t := .two) (by simp) (by simp) :
      Move L ((s.give .condition (some .two)).goto .two (.run .unlockCondition)) _ _)
  have h₄ : Move L (s.goto .two (.run .lockCount)) (.step .two none)
      ((s.give .count (some .two)).goto .two (.run .incr)) := by
    simpa using (Move.lockCount (t := .two) (by simp) hcount :
      Move L (s.goto .two (.run .lockCount)) _ _)
  exact ⟨_, h₁.run.trans (h₂.trans (h₃.run.trans h₄.run))⟩

/-- A whole iteration of the second thread, up to its test for the limit. -/
theorem run_iteration {L : Limits} {s : St} (hs : s.status .two = .run .lockCondition)
    (hcond : s.owner .condition = none) (hcount : s.owner .count = none)
    (hone : ¬ (s.status .one).IsAsleep ∨ InHalt L s.mem) :
    ∃ as, (system L).Run s as ((s.store (inc s.mem)).goto .two (.run (next L (inc s.mem)))) := by
  obtain ⟨as, hrun⟩ := run_to_incr hs hcond hcount hone
  obtain ⟨bs, hrun'⟩ := run_finish (L := L) .two hcount
  exact ⟨_, hrun.trans hrun'⟩

/-- Counting on, one value after the other. -/
theorem run_upto {L : Limits} {s : St} (n : ℕ)
    (h : ∀ c, s.mem ≤ c → c < s.mem + n →
      ∃ as, (system L).Run (s.store c) as (s.store (c + 1))) :
    ∃ as, (system L).Run s as (s.store (s.mem + n)) := by
  induction n with
  | zero => exact ⟨[], by simpa using Lts.Run.nil s⟩
  | succ n ih =>
      push_cast at h ⊢
      obtain ⟨as, hrun⟩ := ih fun c hlo hhi => h c hlo (by omega)
      obtain ⟨bs, hrun'⟩ := h (s.mem + n) (by omega) (by omega)
      rw [add_assoc] at hrun'
      exact ⟨_, hrun.trans hrun'⟩

/-- The second thread counts to any value below the limit, as long as the first is awake. -/
theorem run_count {L : Limits} {s : St} (hs : s.status .two = .run .lockCondition)
    (hcond : s.owner .condition = none) (hcount : s.owner .count = none)
    (hone : ¬ (s.status .one).IsAsleep) (hlo : -2 ^ 31 ≤ s.mem) (hmax : L.done ≤ 2 ^ 31 - 1)
    (n : ℕ) (hn : s.mem + n < L.done) : ∃ as, (system L).Run s as (s.store (s.mem + n)) := by
  refine run_upto n fun c hge hlt => ?_
  obtain ⟨as, hrun⟩ := run_iteration (L := L) (s := s.store c) hs hcond hcount (Or.inl hone)
  have hinc : inc c = c + 1 := inc_eq (by omega) (by omega)
  have hnext : next L (c + 1) = .lockCondition := if_neg (by omega)
  have hself : (s.store (c + 1)).goto .two (.run .lockCondition) = s.store (c + 1) :=
    State.goto_self hs
  rw [State.store_mem, hinc, State.store_store, hnext, hself] at hrun
  exact ⟨as, hrun⟩

/-- After its test the first thread gets to its own increment once `count_mutex` is free, whatever
the counter is by then. -/
theorem run_first {L : Limits} {s : St} (ho : LockOwned s) (hcount : s.owner .count = none)
    (hone : s.status .one = .run .unlockCondition ∨ s.status .one = .run .lockCount) :
    ∃ as s', (system L).Run s as s' ∧ s'.status .one = .run .incr ∧ s'.mem = s.mem := by
  rcases hone with hone | hone
  · have hcond : s.owner .condition = some .one := (ho.owner _ _).2 (by rw [hone]; rfl)
    have h₁ : Move L s (.step .one none) ((s.give .condition none).goto .one (.run .lockCount)) :=
      .unlockCondition hone hcond
    have h₂ := (Move.lockCount (t := .one) (by simp) (by simpa using hcount) :
      Move L ((s.give .condition none).goto .one (.run .lockCount)) _ _)
    exact ⟨_, _, h₁.run.trans h₂.run, by simp, by simp⟩
  · exact ⟨_, _, (Move.lockCount hone hcount).run, by simp, by simp⟩

/-- **Every run that overtakes can go on to a violation**: the first thread comes to increment the
counter inside the range. -/
theorem not_halted_of_overtakes {L : Limits} (hL : L.halt1 ≤ L.halt2)
    {as : List (Action Thread Event)} {s : St} {a : Action Thread Event}
    (hr : (system L).Exec as s) (ho : Overtakes L s a) :
    ∃ bs s', (system L).Exec (as ++ a :: bs) s' ∧ ¬ Halted L (as ++ a :: bs) s' := by
  obtain ⟨rfl, hincr, hreach, hone⟩ := ho
  have hown : s.owner .count = some .two := ((lockOwned hr).owner _ _).2 (by rw [hincr]; rfl)
  -- the second thread increments, prints and unlocks
  have h₁ : Move L s (.step .two none) ((s.store (inc s.mem)).goto .two (.run .print)) :=
    .incr hincr
  have h₂ : Move L ((s.store (inc s.mem)).goto .two (.run .print))
      (.step .two (some (.printed .two (inc s.mem))))
      ((s.store (inc s.mem)).goto .two (.run .unlockCount)) := by
    simpa using (Move.print (t := .two) (by simp) :
      Move L ((s.store (inc s.mem)).goto .two (.run .print)) _ _)
  have h₃ : Move L ((s.store (inc s.mem)).goto .two (.run .unlockCount)) (.step .two none)
      (((s.store (inc s.mem)).give .count none).goto .two (.run .testDone)) := by
    simpa using (Move.unlockCount (t := .two) (by simp) hown :
      Move L ((s.store (inc s.mem)).goto .two (.run .unlockCount)) _ _)
  have hr₃ := hr.trans (h₁.run.trans (h₂.run.trans h₃.run))
  -- the first one goes on from where it was overtaken
  obtain ⟨bs, s', hrun, hincr', hmem⟩ :=
    run_first (L := L) (lockOwned hr₃) (by simp) (by simpa [Function.update_of_ne] using hone)
  have hr' := hr₃.trans hrun
  rw [List.append_assoc] at hr'
  refine ⟨_, s', hr', fun hhalt => hhalt.incr hincr' ?_⟩
  rw [hmem]
  simp only [State.goto_mem, State.give_mem, State.store_mem, hreach]
  exact ⟨le_refl _, hL⟩

/-- The first thread passes its test below the range. -/
theorem run_passed {L : Limits} {s : St} (hs : s.status .one = .run .lockCondition)
    (hcond : s.owner .condition = none) (hlow : s.mem < L.halt1) :
    ∃ as, (system L).Run s as (s.goto .one (.run .lockCount)) := by
  have h₁ : Move L s (.step .one none)
      ((s.give .condition (some .one)).goto .one (.run .testLow)) := .lockCondition hs hcond
  have hpass : low L .one s.mem = .unlockCondition := if_neg (by omega)
  have h₂ : Move L ((s.give .condition (some .one)).goto .one (.run .testLow)) (.step .one none)
      ((s.give .condition (some .one)).goto .one (.run .unlockCondition)) := by
    simpa [hpass] using (Move.testLow (t := .one) (by simp) :
      Move L ((s.give .condition (some .one)).goto .one (.run .testLow)) _ _)
  have h₃ : Move L ((s.give .condition (some .one)).goto .one (.run .unlockCondition))
      (.step .one none) (s.goto .one (.run .lockCount)) := by
    simpa [State.give_self hcond] using (Move.unlockCondition (t := .one) (by simp) (by simp) :
      Move L ((s.give .condition (some .one)).goto .one (.run .unlockCondition)) _ _)
  exact ⟨_, h₁.run.trans (h₂.run.trans h₃.run)⟩

/-- The state in which the first thread has passed its test at the start. -/
def passed : St := start.goto .one (.run .lockCount)

/-- The first thread passes its test and stops. -/
theorem exec_passed {L : Limits} (hpos : 0 < L.halt1) : ∃ as, (system L).Exec as passed := by
  obtain ⟨as, hrun⟩ := run_passed (L := L) (s := start) rfl rfl hpos
  exact ⟨as, start, rfl, hrun⟩

/-- With a positive lower threshold some run overtakes, and goes on to a violation. -/
theorem not_alwaysHalted {L : Limits} (h₁ : L.halt1 ≤ L.halt2) (h₂ : L.halt2 < L.done)
    (hmax : L.done ≤ 2 ^ 31 - 1) (hpos : 0 < L.halt1) : ¬ AlwaysHalted L (system L) := by
  intro hall
  -- the first thread passes its test, and the second counts up to one below the threshold
  obtain ⟨n, hn⟩ := Int.eq_ofNat_of_zero_le (by omega : 0 ≤ L.halt1 - 1)
  have hmem₀ : passed.mem = 0 := rfl
  obtain ⟨as, hr⟩ := exec_passed hpos
  obtain ⟨bs, hrun⟩ := run_count (L := L) (s := passed) rfl rfl rfl id (by decide) hmax n (by omega)
  have hmem : (passed.store (passed.mem + n)).mem = L.halt1 - 1 := by
    rw [State.store_mem]
    omega
  obtain ⟨cs, hrun'⟩ := run_to_incr (L := L) (s := passed.store (passed.mem + n)) rfl rfl rfl
    (Or.inl id)
  have hover : Overtakes L
      (((passed.store (passed.mem + n)).give .count (some .two)).goto .two (.run .incr))
      (.step .two none) := by
    refine ⟨rfl, by simp, ?_, Or.inr (by simp [passed, Function.update_of_ne])⟩
    rw [State.goto_mem, State.give_mem, hmem, inc_eq (by omega) (by omega)]
    omega
  obtain ⟨ds, s', hr', hviol⟩ :=
    not_halted_of_overtakes h₁ ((hr.trans hrun).trans hrun') hover
  exact hviol (hall _ _ hr')

/-- **What holds of the halt**, for any thresholds in order, the lower one an `int` or the limit
below the largest `int`: in every run that never overtakes the first thread is halted, and every run
that overtakes can go on to a violation.  With the limit below the largest `int`, the first thread
is halted in every run of the program exactly when the lower threshold is not positive. -/
theorem alwaysHalted_iff (L : Limits) (h₁ : L.halt1 ≤ L.halt2) (h₂ : L.halt2 < L.done)
    (h₀ : -2 ^ 31 ≤ L.halt1 ∨ L.done < 2 ^ 31 - 1) :
    AlwaysHalted L ((system L).restrict fun s a => ¬ Overtakes L s a) ∧
      (∀ as s a, (system L).Exec as s → Overtakes L s a →
        ∃ bs s', (system L).Exec (as ++ a :: bs) s' ∧ ¬ Halted L (as ++ a :: bs) s') ∧
      (L.done < 2 ^ 31 - 1 → (AlwaysHalted L (system L) ↔ L.halt1 ≤ 0)) := by
  refine ⟨alwaysHalted_restrict h₀, fun as s a => not_halted_of_overtakes h₁, fun hmax => ?_⟩
  constructor
  · intro hall
    by_contra hpos
    exact not_alwaysHalted h₁ h₂ (by omega) (by omega) hall
  · intro hle as s hr
    -- the counter starts above the lower threshold, so there is nothing to overtake
    refine alwaysHalted_restrict h₀ as s (hr.restrict fun as s a s' hr _ hover => ?_)
    have hc := counted hmax hr
    have hreach := hover.reaches
    have hlo := hc.nonneg
    rw [hc.inc_eq hmax hover.incr] at hreach
    omega

/-- The thresholds of the program. -/
def limits : Limits := ⟨10, 3, 6⟩

/-- At the thresholds of the program only the runs without overtaking are all right. -/
theorem alwaysHalted_limits :
    AlwaysHalted limits ((system limits).restrict fun s a => ¬ Overtakes limits s a) ∧
      ¬ AlwaysHalted limits (system limits) := by
  obtain ⟨hrestrict, -, hiff⟩ :=
    alwaysHalted_iff limits (by decide) (by decide) (Or.inl (by decide))
  exact ⟨hrestrict, fun hall => absurd ((hiff (by decide)).1 hall) (by decide)⟩

/-- The program itself has a run in which the first thread increments the counter at 3. -/
theorem not_alwaysHalted_limits : ¬ AlwaysHalted limits (system limits) :=
  not_alwaysHalted (by decide) (by decide) (by decide) (by decide)

end CountHalt
