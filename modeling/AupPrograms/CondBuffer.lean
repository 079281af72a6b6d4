/-
**The bounded buffer with condition variables** (`condition_variable_mutex_lock_unlock.c`).

Producers and consumers share one array of `MAX_SIZE` slots, one counter, one mutex and two
condition variables.  A producer that finds the buffer full waits on `notFull`, a consumer that
finds it empty waits on `notEmpty`; each signals the other's condition after its access.  The model
runs any number of threads of either kind: the threads are `P ⊕ C`, where `P` run `producer` and
`C` run `consumer`.

The character `'p'` a producer writes is tagged with the thread and its iteration, so that every
write has a token of its own.  `buf[count] = 'p'; count++` is one step, and so is the access of the
consumer: both are performed with the mutex held, and no thread looks at either variable without it.

Main definitions:

* `CondBuffer.producer`, `CondBuffer.consumer` — the two functions;
* `CondBuffer.system` — any number of threads running them;
* `CondBuffer.Move` — what a step of the system can be;
* `CondBuffer.Safe` — no slot outside the array is touched and no token is lost or duplicated.

Main results:

* `CondBuffer.move_of_step`, `CondBuffer.step_of_move` — the moves are exactly the steps;
* `CondBuffer.inv_of_exec` — the invariant of the memory;
* `CondBuffer.safe_of_exec` — **every reachable state is safe**, for every schedule;
* `CondBuffer.run_iteration` — an iteration that nothing disturbs.
-/

import AupPrograms.BoundedBuffer
import AupPrograms.Pthread
import Mathlib.Data.List.Nodup
import Mathlib.Data.List.Perm.Basic

set_option relaxedAutoImplicit false
set_option autoImplicit false

namespace CondBuffer

open Pthread BoundedBuffer

/-! ### The program -/

/-- The two condition variables. -/
inductive Cond
  | notFull
  | notEmpty
  deriving DecidableEq

/-- The program points of a worker. -/
inductive Pc
  | head
  | lock
  | test
  | wait
  | access
  | signal
  | unlock
  | exit
  deriving DecidableEq

/-- A program point, with the loop variable `i`. -/
structure Loc where
  pc : Pc
  i : ℕ
  deriving DecidableEq

/-- What distinguishes a producer from a consumer. -/
structure Side (τ : Type) where
  /-- The test of the `while` around the wait. -/
  blocked : Mem τ → Bool
  /-- The condition it waits on. -/
  cond : Cond
  /-- The access of iteration `i`, and its event. -/
  access : ℕ → Mem τ → Mem τ
  event : ℕ → Mem τ → Event τ
  /-- The condition it signals. -/
  wakes : Cond

/-- The body common to `producer` and `consumer`, for a loop bound `N`. -/
def worker {τ : Type} (N : ℕ) (d : Side τ) : Loc → Instr Loc (Mem τ) Unit Cond (Event τ)
  | ⟨.head, i⟩ => .act id (fun _ => none) fun _ => if i < N then ⟨.lock, i⟩ else ⟨.exit, i⟩
  | ⟨.lock, i⟩ => .lock () ⟨.test, i⟩
  | ⟨.test, i⟩ => .act id (fun _ => none) fun g =>
      if d.blocked g then ⟨.wait, i⟩ else ⟨.access, i⟩
  | ⟨.wait, i⟩ => .wait d.cond () ⟨.test, i⟩
  | ⟨.access, i⟩ => .act (d.access i) (fun g => some (d.event i g)) fun _ => ⟨.signal, i⟩
  | ⟨.signal, i⟩ => .signal d.wakes ⟨.unlock, i⟩
  | ⟨.unlock, i⟩ => .unlock () ⟨.head, i + 1⟩
  | ⟨.exit, _⟩ => .exit

variable {P C : Type}

/-- A producer waits while `count == MAX_SIZE` and fills the slot `count`. -/
def producerSide (MAX : ℕ) (p : P) : Side (Token P) where
  blocked g := g.count == MAX
  cond := .notFull
  access i g := (g.write (p, i)).incr
  event i g := .put g.count (p, i)
  wakes := .notEmpty

/-- A consumer waits while `count == 0` and reads the slot `count - 1`. -/
def consumerSide : Side (Token P) where
  blocked g := g.count == 0
  cond := .notEmpty
  access _ g := g.decr
  event _ g := .get (g.count - 1) (g.buf (g.count - 1))
  wakes := .notFull

/-- `producer`, run by thread `p`. -/
def producer (MAX N : ℕ) (p : P) : Loc → Instr Loc (Mem (Token P)) Unit Cond (Event (Token P)) :=
  worker N (producerSide MAX p)

/-- `consumer`. -/
def consumer (N : ℕ) : Loc → Instr Loc (Mem (Token P)) Unit Cond (Event (Token P)) :=
  worker N consumerSide

/-- What each thread runs. -/
def code (MAX N : ℕ) : P ⊕ C → Loc → Instr Loc (Mem (Token P)) Unit Cond (Event (Token P))
  | .inl p => producer MAX N p
  | .inr _ => consumer N

/-- The side of each thread. -/
def side (MAX : ℕ) : P ⊕ C → Side (Token P)
  | .inl p => producerSide MAX p
  | .inr _ => consumerSide

theorem code_eq (MAX N : ℕ) (t : P ⊕ C) : code MAX N t = worker N (side MAX t) := by
  cases t <;> rfl

/-- The states of the system. -/
abbrev St (P C : Type) := State (P ⊕ C) Loc (Mem (Token P)) Unit Cond

/-- `main`: the counter is zero, nothing is written, and every thread is about to start. -/
def start (P C : Type) : St P C where
  status _ := .run ⟨.head, 0⟩
  owner _ := none
  mem := ⟨0, fun _ => none⟩

variable [DecidableEq P] [DecidableEq C]

/-- Any number of producers and consumers on one buffer. -/
def system (P C : Type) [DecidableEq P] [DecidableEq C] (MAX N : ℕ) :
    Lts (St P C) (Action (P ⊕ C) (Event (Token P))) :=
  Pthread.system (code MAX N) (start P C)

/-! ### What a step can be -/

/-- **Everything a step of the system can be.** -/
inductive Move (MAX N : ℕ) : St P C → Option (Event (Token P)) → St P C → Prop
  | enter {s : St P C} {t : P ⊕ C} {i : ℕ} (h : s.status t = .run ⟨.head, i⟩) (hi : i < N) :
      Move MAX N s none (s.goto t (.run ⟨.lock, i⟩))
  | leave {s : St P C} {t : P ⊕ C} {i : ℕ} (h : s.status t = .run ⟨.head, i⟩) (hi : ¬ i < N) :
      Move MAX N s none (s.goto t (.run ⟨.exit, i⟩))
  | lock {s : St P C} {t : P ⊕ C} {i : ℕ} (h : s.status t = .run ⟨.lock, i⟩)
      (ho : s.owner () = none) :
      Move MAX N s none ((s.give () (some t)).goto t (.run ⟨.test, i⟩))
  | blocked {s : St P C} {t : P ⊕ C} {i : ℕ} (h : s.status t = .run ⟨.test, i⟩)
      (hb : (side MAX t).blocked s.mem = true) : Move MAX N s none (s.goto t (.run ⟨.wait, i⟩))
  | clear {s : St P C} {t : P ⊕ C} {i : ℕ} (h : s.status t = .run ⟨.test, i⟩)
      (hb : (side MAX t).blocked s.mem = false) :
      Move MAX N s none (s.goto t (.run ⟨.access, i⟩))
  | sleep {s : St P C} {t : P ⊕ C} {i : ℕ} (h : s.status t = .run ⟨.wait, i⟩)
      (ho : s.owner () = some t) :
      Move MAX N s none ((s.give () none).goto t (.asleep (side MAX t).cond () ⟨.test, i⟩))
  | access {s : St P C} {t : P ⊕ C} {i : ℕ} (h : s.status t = .run ⟨.access, i⟩) :
      Move MAX N s (some ((side MAX t).event i s.mem))
        ((s.store ((side MAX t).access i s.mem)).goto t (.run ⟨.signal, i⟩))
  | wake {s : St P C} {t u : P ⊕ C} {i : ℕ} {l : Loc} (h : s.status t = .run ⟨.signal, i⟩)
      (hu : s.status u = .asleep (side MAX t).wakes () l) :
      Move MAX N s none ((s.goto t (.run ⟨.unlock, i⟩)).goto u (.woken () l))
  | lost {s : St P C} {t : P ⊕ C} {i : ℕ} (h : s.status t = .run ⟨.signal, i⟩)
      (hn : ∀ u l, s.status u ≠ .asleep (side MAX t).wakes () l) :
      Move MAX N s none (s.goto t (.run ⟨.unlock, i⟩))
  | unlock {s : St P C} {t : P ⊕ C} {i : ℕ} (h : s.status t = .run ⟨.unlock, i⟩)
      (ho : s.owner () = some t) :
      Move MAX N s none ((s.give () none).goto t (.run ⟨.head, i + 1⟩))
  | relock {s : St P C} {t : P ⊕ C} {l : Loc} (h : s.status t = .woken () l)
      (ho : s.owner () = none) : Move MAX N s none ((s.give () (some t)).goto t (.run l))
  | spurious {s : St P C} {t : P ⊕ C} {c : Cond} {l : Loc} (h : s.status t = .asleep c () l) :
      Move MAX N s none (s.goto t (.woken () l))

/-- The inversion of a step. -/
theorem move_of_step {MAX N : ℕ} {s s' : St P C} {a : Action (P ⊕ C) (Event (Token P))}
    (h : (system P C MAX N).step s a s') : Move MAX N s a.event s' := by
  cases h with
  | @lock t l k m hs hc ho =>
      obtain ⟨pc, i⟩ := l
      rw [code_eq] at hc
      cases pc <;> simp only [worker, reduceCtorEq, Instr.lock.injEq] at hc
      obtain ⟨-, rfl⟩ := hc
      exact Move.lock hs ho
  | @unlock t l k m hs hc ho =>
      obtain ⟨pc, i⟩ := l
      rw [code_eq] at hc
      cases pc <;> simp only [worker, reduceCtorEq, Instr.unlock.injEq] at hc
      obtain ⟨-, rfl⟩ := hc
      exact Move.unlock hs ho
  | @wait t l k c m hs hc ho =>
      obtain ⟨pc, i⟩ := l
      rw [code_eq] at hc
      cases pc <;> simp only [worker, reduceCtorEq, Instr.wait.injEq] at hc
      obtain ⟨rfl, -, rfl⟩ := hc
      exact Move.sleep hs ho
  | relock hs ho => exact Move.relock hs ho
  | @wake t u l k l' c m hs hc hu =>
      obtain ⟨pc, i⟩ := l
      rw [code_eq] at hc
      cases pc <;> simp only [worker, reduceCtorEq, Instr.signal.injEq] at hc
      obtain ⟨rfl, rfl⟩ := hc
      exact Move.wake hs hu
  | @lost t l k c hs hc hn =>
      obtain ⟨pc, i⟩ := l
      rw [code_eq] at hc
      cases pc <;> simp only [worker, reduceCtorEq, Instr.signal.injEq] at hc
      obtain ⟨rfl, rfl⟩ := hc
      exact Move.lost hs fun u l => hn u () l
  | @act t l f e k hs hc =>
      obtain ⟨pc, i⟩ := l
      rw [code_eq] at hc
      cases pc <;> simp only [worker, reduceCtorEq, Instr.act.injEq] at hc
      · obtain ⟨rfl, rfl, rfl⟩ := hc
        by_cases hi : i < N
        · simpa [hi] using (Move.enter hs hi : Move MAX N s none _)
        · simpa [hi] using (Move.leave hs hi : Move MAX N s none _)
      · obtain ⟨rfl, rfl, rfl⟩ := hc
        cases hb : (side MAX t).blocked s.mem
        · simpa [hb] using (Move.clear hs hb : Move MAX N s none _)
        · simpa [hb] using (Move.blocked hs hb : Move MAX N s none _)
      · obtain ⟨rfl, rfl, rfl⟩ := hc
        exact Move.access hs
  | spurious hs => exact Move.spurious hs

/-- Every move is a step. -/
theorem step_of_move {MAX N : ℕ} {s s' : St P C} {e : Option (Event (Token P))}
    (h : Move MAX N s e s') : ∃ a, (system P C MAX N).step s a s' ∧ a.event = e := by
  cases h with
  | @enter t i hs hi =>
      refine ⟨.step t none, (?_ : Step (code MAX N) s _ _), rfl⟩
      simpa [hi] using Step.act hs (congrFun (code_eq MAX N t) ⟨.head, i⟩)
  | @leave t i hs hi =>
      refine ⟨.step t none, (?_ : Step (code MAX N) s _ _), rfl⟩
      simpa [hi] using Step.act hs (congrFun (code_eq MAX N t) ⟨.head, i⟩)
  | @lock t i hs ho =>
      exact ⟨.step t none, Step.lock hs (congrFun (code_eq MAX N t) ⟨.lock, i⟩) ho, rfl⟩
  | @blocked t i hs hb =>
      refine ⟨.step t none, (?_ : Step (code MAX N) s _ _), rfl⟩
      simpa [hb] using Step.act hs (congrFun (code_eq MAX N t) ⟨.test, i⟩)
  | @clear t i hs hb =>
      refine ⟨.step t none, (?_ : Step (code MAX N) s _ _), rfl⟩
      simpa [hb] using Step.act hs (congrFun (code_eq MAX N t) ⟨.test, i⟩)
  | @sleep t i hs ho =>
      exact ⟨.step t none, Step.wait hs (congrFun (code_eq MAX N t) ⟨.wait, i⟩) ho, rfl⟩
  | @access t i hs =>
      exact ⟨.step t (some _), Step.act hs (congrFun (code_eq MAX N t) ⟨.access, i⟩), rfl⟩
  | @wake t u i l hs hu =>
      exact ⟨.step t none, Step.wake hs (congrFun (code_eq MAX N t) ⟨.signal, i⟩) hu, rfl⟩
  | @lost t i hs hn =>
      exact ⟨.step t none,
        Step.lost hs (congrFun (code_eq MAX N t) ⟨.signal, i⟩) fun u _ l => hn u l, rfl⟩
  | @unlock t i hs ho =>
      exact ⟨.step t none, Step.unlock hs (congrFun (code_eq MAX N t) ⟨.unlock, i⟩) ho, rfl⟩
  | @relock t l hs ho => exact ⟨.step t none, Step.relock hs ho, rfl⟩
  | @spurious t c l hs => exact ⟨.spurious t, Step.spurious hs, rfl⟩

/-! ### The mutex -/

/-- The program points at which the mutex is held. -/
def Loc.Locked (l : Loc) : Prop :=
  match l.pc with
  | .test | .wait | .access | .signal | .unlock => True
  | .head | .lock | .exit => False

omit [DecidableEq P] [DecidableEq C] in
theorem discipline (MAX N : ℕ) :
    Discipline (code (P := P) (C := C) MAX N) fun _ l _ => l.Locked := by
  constructor
  all_goals
    rintro t ⟨pc, i⟩
    rw [code_eq]
    cases pc <;> simp [worker, Loc.Locked]
  · intro g
    by_cases hi : i < N <;> simp [hi]
  · intro g
    cases (side MAX t).blocked g <;> simp

/-- The mutex is owned by the thread that stands at a locked program point. -/
abbrev LockOwned (s : St P C) : Prop := Owned (fun _ l _ => l.Locked) s

theorem lockOwned {MAX N : ℕ} {as : List (Action (P ⊕ C) (Event (Token P)))} {s : St P C}
    (h : (system P C MAX N).Exec as s) : LockOwned s := by
  refine owned (discipline MAX N) ⟨?_, ?_⟩ h
  · simp [start, heldAt, Loc.Locked]
  · simp [start, Returns]

omit [DecidableEq P] [DecidableEq C] in
/-- Two threads at locked program points are the same thread. -/
theorem eq_of_locked {s : St P C} (ho : LockOwned s) {t u : P ⊕ C} {l l' : Loc}
    (ht : s.status t = .run l) (hu : s.status u = .run l') (hl : l.Locked) (hl' : l'.Locked) :
    t = u :=
  ho.eq (m := ()) (by rw [ht]; exact hl) (by rw [hu]; exact hl')

/-! ### The shape of a thread -/

/-- The loop variable fits the program point. -/
def Loc.InRange (N : ℕ) (l : Loc) : Prop :=
  match l.pc with
  | .head => l.i ≤ N
  | .exit => l.i = N
  | _ => l.i < N

/-- Where a thread can stand: it waits on its own condition only, and returns to its test. -/
def Shape (MAX N : ℕ) (t : P ⊕ C) : Status Loc Unit Cond → Prop
  | .run l => l.InRange N
  | .asleep c _ l => c = (side MAX t).cond ∧ l.pc = .test ∧ l.i < N
  | .woken _ l => l.pc = .test ∧ l.i < N

/-- A moving thread that keeps its shape. -/
theorem Shape.goto {MAX N : ℕ} {s : St P C} (h : ∀ u, Shape MAX N u (s.status u)) {t : P ⊕ C}
    {st : Status Loc Unit Cond} (hst : Shape MAX N t (s.status t) → Shape MAX N t st) :
    ∀ u, Shape MAX N u ((s.goto t st).status u) := by
  intro u
  by_cases hu : u = t
  · subst hu; simpa using hst (h u)
  · simpa [Function.update_of_ne hu] using h u

theorem Shape.move {MAX N : ℕ} {s s' : St P C} {e : Option (Event (Token P))}
    (h : ∀ t, Shape MAX N t (s.status t)) (hm : Move MAX N s e s') :
    ∀ t, Shape MAX N t (s'.status t) := by
  cases hm with
  | enter hs hi => exact Shape.goto h fun _ => hi
  | leave hs hi =>
      refine Shape.goto h fun ht => ?_
      rw [hs] at ht
      simp only [Shape, Loc.InRange] at ht ⊢
      omega
  | lock hs _ | blocked hs _ | clear hs _ | lost hs _ =>
      exact Shape.goto (by simpa using h) fun ht => by simpa [hs, Shape, Loc.InRange] using ht
  | access hs =>
      exact Shape.goto (by simpa using h) fun ht => by simpa [hs, Shape, Loc.InRange] using ht
  | sleep hs _ =>
      exact Shape.goto (by simpa using h) fun ht => by simpa [hs, Shape, Loc.InRange] using ht
  | unlock hs _ =>
      refine Shape.goto (by simpa using h) fun ht => ?_
      simp only [State.give_status, hs, Shape, Loc.InRange] at ht ⊢
      omega
  | @wake t u i l hs hu =>
      have hut : u ≠ t := fun hut => by rw [hut, hs] at hu; cases hu
      have h₁ : ∀ u, Shape MAX N u ((s.goto t (.run ⟨.unlock, i⟩)).status u) :=
        Shape.goto h fun ht => by simpa [hs, Shape, Loc.InRange] using ht
      refine Shape.goto h₁ fun ht => ?_
      simp only [State.goto_status, Function.update_of_ne hut, hu] at ht
      exact ht.2
  | @relock t l hs _ =>
      refine Shape.goto (by simpa using h) fun ht => ?_
      simp only [State.give_status, hs, Shape] at ht
      simpa [Shape, Loc.InRange, ht.1] using ht.2
  | spurious hs => exact Shape.goto h fun ht => by rw [hs] at ht; exact ht.2

theorem shape {MAX N : ℕ} {as : List (Action (P ⊕ C) (Event (Token P)))} {s : St P C}
    (h : (system P C MAX N).Exec as s) : ∀ t, Shape MAX N t (s.status t) := by
  refine Lts.Exec.state_invariant (I := fun s => ∀ t, Shape MAX N t (s.status t)) ?_ ?_ h
  · rintro s rfl t
    simp [start, Shape, Loc.InRange]
  · intro s a s' hI hs
    exact Shape.move hI (move_of_step hs)

/-! ### The invariant -/

/-- The accesses a thread at `l` has made. -/
def Loc.done (l : Loc) : ℕ :=
  match l.pc with
  | .signal | .unlock => l.i + 1
  | _ => l.i

/-- A thread that moves without making an access. -/
theorem done_goto {s : St P C} {t : P ⊕ C} {st : Status Loc Unit Cond}
    (hst : st.loc.done = (s.status t).loc.done) (u : P ⊕ C) :
    ((s.goto t st).status u).loc.done = (s.status u).loc.done := by
  by_cases hu : u = t
  · subst hu; simpa using hst
  · simp [Function.update_of_ne hu]

/-- A silent move leaves the memory and the number of accesses of every thread as they are. -/
theorem Move.silent {MAX N : ℕ} {s s' : St P C} {e : Option (Event (Token P))}
    (h : Move MAX N s e s') (he : e = none) :
    s'.mem = s.mem ∧ ∀ u, (s'.status u).loc.done = (s.status u).loc.done := by
  cases h with
  | enter hs _ | leave hs _ | blocked hs _ | clear hs _ | lost hs _ =>
      exact ⟨rfl, done_goto (by rw [hs]; rfl)⟩
  | spurious hs => exact ⟨rfl, done_goto (by rw [hs]; rfl)⟩
  | lock hs _ | sleep hs _ | unlock hs _ | relock hs _ =>
      exact ⟨rfl, done_goto (s := s.give () _) (by rw [State.give_status, hs]; rfl)⟩
  | access hs => simp at he
  | @wake t u i l hs hu =>
      have hut : u ≠ t := fun hut => by rw [hut, hs] at hu; cases hu
      refine ⟨rfl, fun v => ?_⟩
      rw [done_goto (by simp [Function.update_of_ne hut, hu]), done_goto (by rw [hs]; rfl)]

/-- A visible move is an access. -/
theorem Move.visible {MAX N : ℕ} {s s' : St P C} {e : Option (Event (Token P))}
    (h : Move MAX N s e s') {ev : Event (Token P)} (he : e = some ev) :
    ∃ t i, s.status t = .run ⟨.access, i⟩ ∧ ev = (side MAX t).event i s.mem ∧
      s' = (s.store ((side MAX t).access i s.mem)).goto t (.run ⟨.signal, i⟩) := by
  cases h with
  | @access t i hs => exact ⟨t, i, hs, (Option.some_inj.1 he).symm, rfl⟩
  | _ => cases he

/-- What a thread knows from its last test, and still holds: that it may access the buffer, or that
it has to wait. -/
def Tested (MAX : ℕ) (t : P ⊕ C) (g : Mem (Token P)) : Status Loc Unit Cond → Prop
  | .run ⟨.access, _⟩ => (side MAX t).blocked g = false
  | .run ⟨.wait, _⟩ => (side MAX t).blocked g = true
  | _ => True

omit [DecidableEq P] [DecidableEq C] in
/-- A thread without the mutex knows nothing. -/
theorem tested_of_not_locked {MAX : ℕ} {t : P ⊕ C} {g : Mem (Token P)} {st : Status Loc Unit Cond}
    (h : ∀ l, st = .run l → ¬ l.Locked) : Tested MAX t g st := by
  cases st with
  | run l =>
      obtain ⟨pc, i⟩ := l
      have hl := h _ rfl
      cases pc <;> first | trivial | exact absurd trivial hl
  | asleep c m l => trivial
  | woken m l => trivial

/-- What holds of the shared memory `s.mem` after the events `es`. -/
structure Inv (MAX : ℕ) (es : List (Event (Token P))) (s : St P C) : Prop where
  count_nonneg : 0 ≤ s.mem.count
  count_le : s.mem.count ≤ MAX
  tested : ∀ t, Tested MAX t s.mem (s.status t)
  put_slot : ∀ slot v, Event.put slot v ∈ es → 0 ≤ slot ∧ slot < MAX
  get_slot : ∀ slot v, Event.get slot v ∈ es → 0 ≤ slot ∧ slot < MAX
  /-- Every token written has been read or is still in the buffer, and nothing else is. -/
  perm : (gets es ++ contents s.mem).Perm ((puts es).map some)
  /-- A thread has written the tokens of its finished iterations only. -/
  fresh : ∀ p j, (p, j) ∈ puts es → j < (s.status (.inl p)).loc.done
  nodup : (puts es).Nodup

omit [DecidableEq P] [DecidableEq C] in
theorem inv_start (MAX : ℕ) : Inv MAX [] (start P C) where
  count_nonneg := le_refl _
  count_le := by simp [start]
  tested t := trivial
  put_slot slot v h := by simp at h
  get_slot slot v h := by simp at h
  perm := by simp [start, contents]
  fresh p j h := by simp at h
  nodup := by simp

omit [DecidableEq P] [DecidableEq C] in
/-- The invariant does not look at the owners. -/
theorem Inv.give {MAX : ℕ} {es : List (Event (Token P))} {s : St P C} (h : Inv MAX es s)
    (o : Option (P ⊕ C)) : Inv MAX es (s.give () o) := ⟨h.1, h.2, h.3, h.4, h.5, h.6, h.7, h.8⟩

/-- A thread moves without touching the memory. -/
theorem Inv.goto {MAX : ℕ} {es : List (Event (Token P))} {s : St P C} (h : Inv MAX es s)
    {t : P ⊕ C} {st : Status Loc Unit Cond} (hdone : st.loc.done = (s.status t).loc.done)
    (htest : Tested MAX t s.mem st) : Inv MAX es (s.goto t st) where
  count_nonneg := h.count_nonneg
  count_le := h.count_le
  tested u := by
    by_cases hut : u = t
    · subst hut; simpa using htest
    · simpa [Function.update_of_ne hut] using h.tested u
  put_slot := h.put_slot
  get_slot := h.get_slot
  perm := h.perm
  fresh p j hj := by
    by_cases hp : Sum.inl p = t
    · subst hp
      simpa [hdone] using h.fresh p j hj
    · simpa [Function.update_of_ne hp] using h.fresh p j hj
  nodup := h.nodup

omit [DecidableEq P] [DecidableEq C] in
/-- While one thread is at its access no other thread holds the mutex. -/
theorem not_locked_of_ne {s : St P C} (ho : LockOwned s) {t : P ⊕ C} {i : ℕ}
    (hs : s.status t = .run ⟨.access, i⟩) {u : P ⊕ C} (hut : u ≠ t) {l : Loc}
    (hu : s.status u = .run l) : ¬ l.Locked :=
  fun hl => hut (eq_of_locked ho hu hs hl trivial)

/-- After its access a thread is the only one that could have tested the memory, and it has moved
on. -/
theorem tested_access {MAX : ℕ} {s : St P C} (ho : LockOwned s) {t : P ⊕ C} {i : ℕ}
    (hs : s.status t = .run ⟨.access, i⟩) (g : Mem (Token P)) (u : P ⊕ C) :
    Tested MAX u g (((s.store g).goto t (.run ⟨.signal, i⟩)).status u) := by
  by_cases hut : u = t
  · subst hut; simp [Tested]
  · refine tested_of_not_locked fun l hl => ?_
    exact not_locked_of_ne ho hs hut (by simpa [Function.update_of_ne hut] using hl)

/-- A producer fills the slot `count`. -/
theorem Inv.access_put {MAX : ℕ} {es : List (Event (Token P))} {s : St P C} (h : Inv MAX es s)
    (ho : LockOwned s) {p : P} {i : ℕ} (hs : s.status (.inl p) = .run ⟨.access, i⟩) :
    Inv MAX (es ++ [.put s.mem.count (p, i)])
      ((s.store (s.mem.write (p, i)).incr).goto (.inl p) (.run ⟨.signal, i⟩)) := by
  have hne : s.mem.count ≠ MAX := by
    simpa [hs, Tested, side, producerSide] using h.tested (.inl p)
  have h0 := h.count_nonneg
  have h1 := h.count_le
  -- the thread has not made the put of this iteration, so its tag is new
  have hnew : (p, i) ∉ puts es := fun hmem => by
    have := h.fresh p i hmem
    simp [hs, Loc.done] at this
  constructor
  · simp; omega
  · simp; omega
  · exact tested_access ho hs _
  · intro slot v hv
    rcases List.mem_append.1 hv with hv | hv
    · exact h.put_slot slot v hv
    · obtain ⟨rfl, -⟩ : slot = s.mem.count ∧ v = (p, i) := by simpa using hv
      omega
  · intro slot v hv
    exact h.get_slot slot v (by simpa using hv)
  · simp only [gets_snoc_put, puts_snoc_put, State.goto_mem, State.store_mem, contents_put h0,
      List.map_append, ← List.append_assoc]
    exact h.perm.append_right _
  · intro q j hj
    rw [puts_snoc_put, List.mem_append] at hj
    by_cases hq : q = p
    · subst hq
      rcases hj with hj | hj
      · have := h.fresh q j hj
        simp only [hs, Status.loc_run, Loc.done] at this
        simp [Loc.done]; omega
      · obtain rfl : j = i := by simpa using hj
        simp [Loc.done]
    · have hj' : (q, j) ∈ puts es := by simpa [hq] using hj
      simpa [Function.update_of_ne, hq] using h.fresh q j hj'
  · rw [puts_snoc_put, ← List.concat_eq_append]
    exact List.Nodup.concat hnew h.nodup

/-- A consumer reads the slot `count - 1`. -/
theorem Inv.access_get {MAX : ℕ} {es : List (Event (Token P))} {s : St P C} (h : Inv MAX es s)
    (ho : LockOwned s) {c : C} {i : ℕ} (hs : s.status (.inr c) = .run ⟨.access, i⟩) :
    Inv MAX (es ++ [.get (s.mem.count - 1) (s.mem.buf (s.mem.count - 1))])
      ((s.store s.mem.decr).goto (.inr c) (.run ⟨.signal, i⟩)) := by
  have hne : s.mem.count ≠ 0 := by
    simpa [hs, Tested, side, consumerSide] using h.tested (.inr c)
  have h0 := h.count_nonneg
  have h1 := h.count_le
  constructor
  · simp; omega
  · simp; omega
  · exact tested_access ho hs _
  · intro slot v hv
    exact h.put_slot slot v (by simpa using hv)
  · intro slot v hv
    rcases List.mem_append.1 hv with hv | hv
    · exact h.get_slot slot v hv
    · obtain ⟨rfl, -⟩ : slot = s.mem.count - 1 ∧ v = _ := by simpa using hv
      omega
  · -- the last token of the contents becomes the last one read
    have hperm := h.perm
    rw [contents_decr (by omega)] at hperm
    simp only [gets_snoc_get, puts_snoc_get, State.goto_mem, State.store_mem, List.append_assoc]
    refine List.Perm.trans ?_ hperm
    exact (List.perm_append_comm).append_left _
  · intro q j hj
    simpa using h.fresh q j (by simpa using hj)
  · simpa using h.nodup

/-- **The step lemma.** -/
theorem Inv.move {MAX N : ℕ} {es : List (Event (Token P))} {s s' : St P C}
    {e : Option (Event (Token P))} (h : Inv MAX es s) (ho : LockOwned s)
    (hsh : ∀ t, Shape MAX N t (s.status t)) (hm : Move MAX N s e s') :
    Inv MAX (e.elim es fun e => es ++ [e]) s' := by
  cases hm with
  | enter hs _ => exact h.goto (by rw [hs]; rfl) trivial
  | leave hs _ => exact h.goto (by rw [hs]; rfl) trivial
  | lock hs _ => exact (h.give _).goto (by simp [hs, Loc.done]) trivial
  | blocked hs hb => exact h.goto (by rw [hs]; rfl) hb
  | clear hs hb => exact h.goto (by rw [hs]; rfl) hb
  | sleep hs _ => exact (h.give _).goto (by simp [hs, Loc.done]) trivial
  | @access t i hs =>
      cases t with
      | inl p => exact h.access_put ho hs
      | inr c => exact h.access_get ho hs
  | @wake t u i l hs hu =>
      have hut : u ≠ t := fun hut => by rw [hut, hs] at hu; cases hu
      have h₁ : Inv MAX es (s.goto t (.run ⟨.unlock, i⟩)) := h.goto (by rw [hs]; rfl) trivial
      exact h₁.goto (by simp [Function.update_of_ne hut, hu]) trivial
  | lost hs _ => exact h.goto (by rw [hs]; rfl) trivial
  | unlock hs _ => exact (h.give _).goto (by simp [hs, Loc.done]) trivial
  | @relock t l hs _ =>
      -- a woken thread returns to its test, where it knows nothing yet
      obtain ⟨pc, i⟩ := l
      obtain rfl : pc = .test := by have := hsh t; rw [hs] at this; exact this.1
      exact (h.give _).goto (by simp [hs]) trivial
  | spurious hs => exact h.goto (by rw [hs]; rfl) trivial

theorem inv_of_exec {MAX N : ℕ} {as : List (Action (P ⊕ C) (Event (Token P)))} {s : St P C}
    (h : (system P C MAX N).Exec as s) : Inv MAX (as.filterMap Action.event) s := by
  refine Lts.Exec.invariant (I := fun as s => Inv MAX (as.filterMap Action.event) s) ?_ ?_ h
  · rintro s rfl
    exact inv_start MAX
  · intro as s a s' hr hI hs
    have := hI.move (lockOwned hr) (shape hr) (move_of_step hs)
    cases he : a.event <;> simpa [he] using this

/-! ### An undisturbed iteration -/

/-- A thread that finds the buffer as it needs it, the mutex free and nobody asleep makes one
iteration. -/
theorem run_iteration (MAX : ℕ) {N : ℕ} {s : St P C} {t : P ⊕ C} {i : ℕ}
    (hs : s.status t = .run ⟨.head, i⟩) (hi : i < N) (ho : s.owner () = none)
    (hb : (side MAX t).blocked s.mem = false) (hn : ∀ u, ¬ (s.status u).IsAsleep) :
    ∃ as s', (system P C MAX N).Run s as s' ∧
      as.filterMap Action.event = [(side MAX t).event i s.mem] ∧
      s'.status = Function.update s.status t (.run ⟨.head, i + 1⟩) ∧ s'.owner () = none ∧
      s'.mem = (side MAX t).access i s.mem := by
  have h₁ : Move MAX N s none (s.goto t (.run ⟨.lock, i⟩)) := Move.enter hs hi
  have h₂ : Move MAX N (s.goto t (.run ⟨.lock, i⟩)) none
      ((s.give () (some t)).goto t (.run ⟨.test, i⟩)) := by
    simpa using (Move.lock (t := t) (i := i) (by simp) ho :
      Move MAX N (s.goto t (.run ⟨.lock, i⟩)) none _)
  have h₃ : Move MAX N ((s.give () (some t)).goto t (.run ⟨.test, i⟩)) none
      ((s.give () (some t)).goto t (.run ⟨.access, i⟩)) := by
    simpa using (Move.clear (t := t) (i := i) (by simp) hb :
      Move MAX N ((s.give () (some t)).goto t (.run ⟨.test, i⟩)) none _)
  have h₄ : Move MAX N ((s.give () (some t)).goto t (.run ⟨.access, i⟩))
      (some ((side MAX t).event i s.mem))
      (((s.store ((side MAX t).access i s.mem)).give () (some t)).goto t (.run ⟨.signal, i⟩)) := by
    simpa using (Move.access (t := t) (i := i) (by simp) :
      Move MAX N ((s.give () (some t)).goto t (.run ⟨.access, i⟩)) _ _)
  set g := (side MAX t).access i s.mem with hg
  -- nobody is asleep, so the signal is lost
  have hn' : ∀ u l, (((s.store g).give () (some t)).goto t (.run ⟨.signal, i⟩)).status u
      ≠ .asleep (side MAX t).wakes () l := by
    intro u l hu
    by_cases hut : u = t
    · simp [hut] at hu
    · have hu' : s.status u = .asleep (side MAX t).wakes () l := by
        simpa [Function.update_of_ne hut] using hu
      exact hn u (by rw [hu']; trivial)
  have h₅ : Move MAX N (((s.store g).give () (some t)).goto t (.run ⟨.signal, i⟩)) none
      (((s.store g).give () (some t)).goto t (.run ⟨.unlock, i⟩)) := by
    simpa using (Move.lost (t := t) (i := i) (by simp) hn' :
      Move MAX N (((s.store g).give () (some t)).goto t (.run ⟨.signal, i⟩)) none _)
  have h₆ : Move MAX N (((s.store g).give () (some t)).goto t (.run ⟨.unlock, i⟩)) none
      (((s.store g).give () none).goto t (.run ⟨.head, i + 1⟩)) := by
    simpa using (Move.unlock (t := t) (i := i) (by simp) (by simp) :
      Move MAX N (((s.store g).give () (some t)).goto t (.run ⟨.unlock, i⟩)) none _)
  obtain ⟨a₁, h₁, e₁⟩ := step_of_move h₁
  obtain ⟨a₂, h₂, e₂⟩ := step_of_move h₂
  obtain ⟨a₃, h₃, e₃⟩ := step_of_move h₃
  obtain ⟨a₄, h₄, e₄⟩ := step_of_move h₄
  obtain ⟨a₅, h₅, e₅⟩ := step_of_move h₅
  obtain ⟨a₆, h₆, e₆⟩ := step_of_move h₆
  refine ⟨[a₁, a₂, a₃, a₄, a₅, a₆], _, .cons h₁ (.cons h₂ (.cons h₃ (.cons h₄ (.cons h₅
    (.single h₆))))), ?_, ?_, ?_, ?_⟩ <;> simp [e₁, e₂, e₃, e₄, e₅, e₆]

/-! ### Safety -/

/-- **Nothing outside the array is touched, and no token is lost or duplicated.**  `es` are the
accesses made so far, `g` the shared memory. -/
structure Safe {τ : Type} (MAX : ℕ) (es : List (Event τ)) (g : Mem τ) : Prop where
  count_nonneg : 0 ≤ g.count
  count_le : g.count ≤ MAX
  put_slot : ∀ slot v, Event.put slot v ∈ es → 0 ≤ slot ∧ slot < MAX
  get_slot : ∀ slot v, Event.get slot v ∈ es → 0 ≤ slot ∧ slot < MAX
  /-- The tags are unique. -/
  written_once : (puts es).Nodup
  read_once : (gets es).Nodup
  read_written : ∀ v ∈ gets es, ∃ w ∈ puts es, v = some w
  /-- The buffer holds the tokens written and not yet read. -/
  mem_contents : ∀ v, v ∈ contents g ↔ (∃ w ∈ puts es, v = some w) ∧ v ∉ gets es
  held_once : (contents g).Nodup

omit [DecidableEq P] [DecidableEq C] in
theorem Inv.safe {MAX : ℕ} {es : List (Event (Token P))} {s : St P C} (h : Inv MAX es s) :
    Safe MAX es s.mem := by
  have hmem : ∀ v, v ∈ gets es ∨ v ∈ contents s.mem ↔ ∃ w ∈ puts es, v = some w := fun v => by
    rw [← List.mem_append, h.perm.mem_iff, List.mem_map]
    simp only [eq_comm]
  have hnd : (gets es ++ contents s.mem).Nodup :=
    h.perm.nodup_iff.2 (List.Nodup.map (Option.some_injective _) h.nodup)
  obtain ⟨hg, hc, hdisj⟩ := List.nodup_append'.1 hnd
  refine ⟨h.count_nonneg, h.count_le, h.put_slot, h.get_slot, h.nodup, hg,
    fun v hv => (hmem v).1 (Or.inl hv), fun v => ⟨fun hv => ?_, fun hv => ?_⟩, hc⟩
  · exact ⟨(hmem v).1 (Or.inr hv), fun hv' => hdisj hv' hv⟩
  · exact ((hmem v).2 hv.1).resolve_left hv.2

/-- **Every reachable state is safe**: for any number of producers and consumers, any loop bound,
any capacity and any schedule. -/
theorem safe_of_exec (MAX N : ℕ) {as : List (Action (P ⊕ C) (Event (Token P)))} {s : St P C}
    (h : (system P C MAX N).Exec as s) : Safe MAX (as.filterMap Action.event) s.mem :=
  (inv_of_exec h).safe

/-- With the numbers of the program, after the first put. -/
theorem safe_after_put : ∃ as s, (system Unit Unit 5 9).Exec as s ∧
    as.filterMap Action.event = [.put 0 ((), 0)] ∧ Safe 5 [.put 0 ((), 0)] s.mem := by
  obtain ⟨as, s, hrun, hev, -⟩ := run_iteration 5 (s := start Unit Unit) (t := .inl ()) (N := 9)
    rfl (by decide) rfl rfl (fun _ h => h)
  have hex : (system Unit Unit 5 9).Exec as s := ⟨_, rfl, hrun⟩
  refine ⟨as, s, hex, hev, ?_⟩
  have hsafe := safe_of_exec 5 9 hex
  rw [hev] at hsafe
  exact hsafe

end CondBuffer
