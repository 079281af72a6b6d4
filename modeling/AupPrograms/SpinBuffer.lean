/-
**The bounded buffer with a spinning test** (`mutex_lock_unlock.c`).

The same buffer as in `AupPrograms/CondBuffer.lean`, with one mutex and no condition variable: a
worker spins on the counter *before* it locks the mutex, and does not test it again under the lock.
Reading the counter in the spinning loop is a step of its own, and so are the access to the slot and
the update of the counter, between which the other thread may spin.

Main definitions:

* `SpinBuffer.producer`, `SpinBuffer.consumer` — the two functions;
* `SpinBuffer.system` — any number of threads running them;
* `SpinBuffer.Move` — what a step of the system can be.

Main results:

* `SpinBuffer.move_of_step`, `SpinBuffer.step_of_move` — the moves are exactly the steps;
* `SpinBuffer.lockOwned`, `SpinBuffer.fits` — the mutex has one holder, and the loop variable
  fits the program point, in every reachable state;
* `SpinBuffer.run_iteration` — an iteration that nothing disturbs.
-/

import AupPrograms.BoundedBuffer
import AupPrograms.Pthread

set_option relaxedAutoImplicit false
set_option autoImplicit false

namespace SpinBuffer

open Pthread BoundedBuffer

/-! ### The program -/

/-- The program points of a worker. -/
inductive Pc
  | head
  | spin
  | lock
  | slot
  | adjust
  | unlock
  | exit
  deriving DecidableEq

/-- A program point, with the loop variable `i`. -/
structure Loc where
  pc : Pc
  i : ℕ
  deriving DecidableEq

/-- What distinguishes a producer from a consumer. -/
structure Side (τ : Type) where
  /-- The test of the spinning loop. -/
  blocked : Mem τ → Bool
  /-- The access to the slot in iteration `i`, and its event. -/
  slot : ℕ → Mem τ → Mem τ
  event : ℕ → Mem τ → Event τ
  /-- The update of the counter. -/
  adjust : Mem τ → Mem τ

/-- The body common to `producer` and `consumer`, for a loop bound `N`. -/
def worker {τ : Type} (N : ℕ) (d : Side τ) : Loc → Instr Loc (Mem τ) Unit Empty (Event τ)
  | ⟨.head, i⟩ => .act id (fun _ => none) fun _ => if i < N then ⟨.spin, i⟩ else ⟨.exit, i⟩
  | ⟨.spin, i⟩ => .act id (fun _ => none) fun g =>
      if d.blocked g then ⟨.spin, i⟩ else ⟨.lock, i⟩
  | ⟨.lock, i⟩ => .lock () ⟨.slot, i⟩
  | ⟨.slot, i⟩ => .act (d.slot i) (fun g => some (d.event i g)) fun _ => ⟨.adjust, i⟩
  | ⟨.adjust, i⟩ => .act d.adjust (fun _ => none) fun _ => ⟨.unlock, i⟩
  | ⟨.unlock, i⟩ => .unlock () ⟨.head, i + 1⟩
  | ⟨.exit, _⟩ => .exit

variable {P C : Type}

/-- A producer spins while `count == MAX_SIZE` and fills the slot `count`. -/
def producerSide (MAX : ℕ) (p : P) : Side (Token P) where
  blocked g := g.count == MAX
  slot i g := g.write (p, i)
  event i g := .put g.count (p, i)
  adjust g := g.incr

/-- A consumer spins while `count == 0` and reads the slot `count - 1`. -/
def consumerSide : Side (Token P) where
  blocked g := g.count == 0
  slot _ g := g
  event _ g := .get (g.count - 1) (g.buf (g.count - 1))
  adjust g := g.decr

/-- `producer`, run by thread `p`. -/
def producer (MAX N : ℕ) (p : P) : Loc → Instr Loc (Mem (Token P)) Unit Empty (Event (Token P)) :=
  worker N (producerSide MAX p)

/-- `consumer`. -/
def consumer (N : ℕ) : Loc → Instr Loc (Mem (Token P)) Unit Empty (Event (Token P)) :=
  worker N consumerSide

/-- What each thread runs. -/
def code (MAX N : ℕ) : P ⊕ C → Loc → Instr Loc (Mem (Token P)) Unit Empty (Event (Token P))
  | .inl p => producer MAX N p
  | .inr _ => consumer N

/-- The side of each thread. -/
def side (MAX : ℕ) : P ⊕ C → Side (Token P)
  | .inl p => producerSide MAX p
  | .inr _ => consumerSide

theorem code_eq (MAX N : ℕ) (t : P ⊕ C) : code MAX N t = worker N (side MAX t) := by
  cases t <;> rfl

/-- The states of the system. -/
abbrev St (P C : Type) := State (P ⊕ C) Loc (Mem (Token P)) Unit Empty

/-- `main`: the counter is zero, nothing is written, and every thread is about to start. -/
def start (P C : Type) : St P C where
  status _ := .run ⟨.head, 0⟩
  owner _ := none
  mem := ⟨0, fun _ => none⟩

variable [DecidableEq P] [DecidableEq C]

/-- Any number of producers and consumers on one buffer. -/
def system (P C : Type) [DecidableEq P] [DecidableEq C] (MAX N : ℕ) :
    Lts (St P C) (Action (P ⊕ C) (Event (Token P))) :=
  Pthread.system (code MAX N) (start P C)

/-! ### What a step can be -/

/-- **Everything a step of the system can be**, when every thread is running. -/
inductive Move (MAX N : ℕ) : St P C → Option (Event (Token P)) → St P C → Prop
  | enter {s : St P C} {t : P ⊕ C} {i : ℕ} (h : s.status t = .run ⟨.head, i⟩) (hi : i < N) :
      Move MAX N s none (s.goto t (.run ⟨.spin, i⟩))
  | leave {s : St P C} {t : P ⊕ C} {i : ℕ} (h : s.status t = .run ⟨.head, i⟩) (hi : ¬ i < N) :
      Move MAX N s none (s.goto t (.run ⟨.exit, i⟩))
  | blocked {s : St P C} {t : P ⊕ C} {i : ℕ} (h : s.status t = .run ⟨.spin, i⟩)
      (hb : (side MAX t).blocked s.mem = true) : Move MAX N s none (s.goto t (.run ⟨.spin, i⟩))
  | clear {s : St P C} {t : P ⊕ C} {i : ℕ} (h : s.status t = .run ⟨.spin, i⟩)
      (hb : (side MAX t).blocked s.mem = false) : Move MAX N s none (s.goto t (.run ⟨.lock, i⟩))
  | lock {s : St P C} {t : P ⊕ C} {i : ℕ} (h : s.status t = .run ⟨.lock, i⟩)
      (ho : s.owner () = none) :
      Move MAX N s none ((s.give () (some t)).goto t (.run ⟨.slot, i⟩))
  | slot {s : St P C} {t : P ⊕ C} {i : ℕ} (h : s.status t = .run ⟨.slot, i⟩) :
      Move MAX N s (some ((side MAX t).event i s.mem))
        ((s.store ((side MAX t).slot i s.mem)).goto t (.run ⟨.adjust, i⟩))
  | adjust {s : St P C} {t : P ⊕ C} {i : ℕ} (h : s.status t = .run ⟨.adjust, i⟩) :
      Move MAX N s none ((s.store ((side MAX t).adjust s.mem)).goto t (.run ⟨.unlock, i⟩))
  | unlock {s : St P C} {t : P ⊕ C} {i : ℕ} (h : s.status t = .run ⟨.unlock, i⟩)
      (ho : s.owner () = some t) :
      Move MAX N s none ((s.give () none).goto t (.run ⟨.head, i + 1⟩))

/-- No thread is in a wait. -/
def Running (s : St P C) : Prop := ∀ t, ∃ l, s.status t = .run l

/-- The inversion of a step. -/
theorem move_of_step {MAX N : ℕ} {s s' : St P C} {a : Action (P ⊕ C) (Event (Token P))}
    (hrun : Running s) (h : (system P C MAX N).step s a s') : Move MAX N s a.event s' := by
  cases h with
  | @lock t l k m hs hc ho =>
      obtain ⟨pc, i⟩ := l
      rw [code_eq] at hc
      cases pc <;> simp only [worker, reduceCtorEq, Instr.lock.injEq] at hc
      obtain ⟨-, rfl⟩ := hc
      exact Move.lock hs ho
  | @unlock t l k m hs hc ho =>
      obtain ⟨pc, i⟩ := l
      rw [code_eq] at hc
      cases pc <;> simp only [worker, reduceCtorEq, Instr.unlock.injEq] at hc
      obtain ⟨-, rfl⟩ := hc
      exact Move.unlock hs ho
  | @wait t l k c m hs hc ho => exact c.elim
  | @relock t l m hs ho =>
      obtain ⟨l', hl'⟩ := hrun t
      rw [hl'] at hs
      cases hs
  | @wake t u l k l' c m hs hc hu => exact c.elim
  | @lost t l k c hs hc hn => exact c.elim
  | @act t l f e k hs hc =>
      obtain ⟨pc, i⟩ := l
      rw [code_eq] at hc
      cases pc <;> simp only [worker, reduceCtorEq, Instr.act.injEq] at hc
      · obtain ⟨rfl, rfl, rfl⟩ := hc
        by_cases hi : i < N
        · simpa [hi] using (Move.enter hs hi : Move MAX N s none _)
        · simpa [hi] using (Move.leave hs hi : Move MAX N s none _)
      · obtain ⟨rfl, rfl, rfl⟩ := hc
        cases hb : (side MAX t).blocked s.mem
        · simpa [hb] using (Move.clear hs hb : Move MAX N s none _)
        · simpa [hb] using (Move.blocked hs hb : Move MAX N s none _)
      · obtain ⟨rfl, rfl, rfl⟩ := hc
        exact Move.slot hs
      · obtain ⟨rfl, rfl, rfl⟩ := hc
        exact Move.adjust hs
  | @spurious t l c m hs => exact c.elim

/-- Every move is a step. -/
theorem step_of_move {MAX N : ℕ} {s s' : St P C} {e : Option (Event (Token P))}
    (h : Move MAX N s e s') : ∃ a, (system P C MAX N).step s a s' ∧ a.event = e := by
  cases h with
  | @enter t i hs hi =>
      refine ⟨.step t none, (?_ : Step (code MAX N) s _ _), rfl⟩
      simpa [hi] using Step.act hs (congrFun (code_eq MAX N t) ⟨.head, i⟩)
  | @leave t i hs hi =>
      refine ⟨.step t none, (?_ : Step (code MAX N) s _ _), rfl⟩
      simpa [hi] using Step.act hs (congrFun (code_eq MAX N t) ⟨.head, i⟩)
  | @blocked t i hs hb =>
      refine ⟨.step t none, (?_ : Step (code MAX N) s _ _), rfl⟩
      simpa [hb] using Step.act hs (congrFun (code_eq MAX N t) ⟨.spin, i⟩)
  | @clear t i hs hb =>
      refine ⟨.step t none, (?_ : Step (code MAX N) s _ _), rfl⟩
      simpa [hb] using Step.act hs (congrFun (code_eq MAX N t) ⟨.spin, i⟩)
  | @lock t i hs ho =>
      exact ⟨.step t none, Step.lock hs (congrFun (code_eq MAX N t) ⟨.lock, i⟩) ho, rfl⟩
  | @slot t i hs =>
      exact ⟨.step t (some _), Step.act hs (congrFun (code_eq MAX N t) ⟨.slot, i⟩), rfl⟩
  | @adjust t i hs =>
      exact ⟨.step t none, Step.act hs (congrFun (code_eq MAX N t) ⟨.adjust, i⟩), rfl⟩
  | @unlock t i hs ho =>
      exact ⟨.step t none, Step.unlock hs (congrFun (code_eq MAX N t) ⟨.unlock, i⟩) ho, rfl⟩

/-- A visible move is an access to a slot. -/
theorem Move.visible {MAX N : ℕ} {s s' : St P C} {e : Option (Event (Token P))}
    (h : Move MAX N s e s') {ev : Event (Token P)} (he : e = some ev) :
    ∃ t i, s.status t = .run ⟨.slot, i⟩ ∧ ev = (side MAX t).event i s.mem ∧
      s' = (s.store ((side MAX t).slot i s.mem)).goto t (.run ⟨.adjust, i⟩) := by
  cases h with
  | @slot t i hs => exact ⟨t, i, hs, (Option.some_inj.1 he).symm, rfl⟩
  | _ => cases he

/-! ### The mutex and the loop variable -/

/-- The program points at which the mutex is held. -/
def Loc.Locked (l : Loc) : Prop :=
  match l.pc with
  | .slot | .adjust | .unlock => True
  | .head | .spin | .lock | .exit => False

omit [DecidableEq P] [DecidableEq C] in
theorem discipline (MAX N : ℕ) :
    Discipline (code (P := P) (C := C) MAX N) fun _ l _ => l.Locked := by
  constructor
  all_goals
    rintro t ⟨pc, i⟩
    rw [code_eq]
    cases pc <;> simp [worker, Loc.Locked]
  · intro g
    by_cases hi : i < N <;> simp [hi]
  · intro g
    cases (side MAX t).blocked g <;> simp

/-- The mutex is owned by the thread that stands at a locked program point. -/
abbrev LockOwned (s : St P C) : Prop := Owned (fun _ l _ => l.Locked) s

theorem lockOwned {MAX N : ℕ} {as : List (Action (P ⊕ C) (Event (Token P)))} {s : St P C}
    (h : (system P C MAX N).Exec as s) : LockOwned s := by
  refine owned (discipline MAX N) ⟨?_, ?_⟩ h
  · simp [start, heldAt, Loc.Locked]
  · simp [start, Returns]

omit [DecidableEq P] [DecidableEq C] in
/-- Two threads at locked program points are the same thread. -/
theorem eq_of_locked {s : St P C} (ho : LockOwned s) {t u : P ⊕ C} {l l' : Loc}
    (ht : s.status t = .run l) (hu : s.status u = .run l') (hl : l.Locked) (hl' : l'.Locked) :
    t = u :=
  ho.eq (m := ()) (by rw [ht]; exact hl) (by rw [hu]; exact hl')

/-- The loop variable fits the program point. -/
def Loc.InRange (N : ℕ) (l : Loc) : Prop :=
  match l.pc with
  | .head => l.i ≤ N
  | .exit => l.i = N
  | _ => l.i < N

/-- Every thread runs, with a loop variable that fits its program point. -/
def Fits (N : ℕ) (s : St P C) : Prop := ∀ t, ∃ l, s.status t = .run l ∧ l.InRange N

omit [DecidableEq P] [DecidableEq C] in
theorem Fits.running {N : ℕ} {s : St P C} (h : Fits N s) : Running s := fun t => by
  obtain ⟨l, hl, -⟩ := h t
  exact ⟨l, hl⟩

omit [DecidableEq P] [DecidableEq C] in
theorem Fits.at {N : ℕ} {s : St P C} (h : Fits N s) {t : P ⊕ C} {l : Loc}
    (hl : s.status t = .run l) : l.InRange N := by
  obtain ⟨l', hl', hr⟩ := h t
  rw [hl] at hl'
  exact Status.run.inj hl' ▸ hr

theorem Fits.goto {N : ℕ} {s : St P C} (h : Fits N s) {t : P ⊕ C} {l : Loc} (hl : l.InRange N) :
    Fits N (s.goto t (.run l)) := by
  intro u
  by_cases hu : u = t
  · subst hu; exact ⟨l, by simp, hl⟩
  · simpa [Function.update_of_ne hu] using h u

theorem Fits.move {MAX N : ℕ} {s s' : St P C} {e : Option (Event (Token P))} (h : Fits N s)
    (hm : Move MAX N s e s') : Fits N s' := by
  cases hm with
  | enter hs hi => exact h.goto hi
  | leave hs hi =>
      have hr := h.at hs
      refine h.goto ?_
      simp only [Loc.InRange] at hr ⊢
      omega
  | blocked hs _ | clear hs _ =>
      have hr := h.at hs
      exact h.goto hr
  | lock hs _ =>
      have hr := h.at hs
      exact Fits.goto (s := s.give () _) h hr
  | slot hs | adjust hs =>
      have hr := h.at hs
      exact Fits.goto (s := s.store _) h hr
  | unlock hs _ =>
      have hr := h.at hs
      exact Fits.goto (s := s.give () _) h (Nat.succ_le_of_lt hr)

theorem fits {MAX N : ℕ} {as : List (Action (P ⊕ C) (Event (Token P)))} {s : St P C}
    (h : (system P C MAX N).Exec as s) : Fits N s := by
  refine Lts.Exec.state_invariant (I := Fits N) ?_ ?_ h
  · rintro s rfl t
    exact ⟨_, rfl, Nat.zero_le N⟩
  · intro s a s' hI hs
    exact hI.move (move_of_step hI.running hs)

/-! ### An undisturbed iteration -/

/-- A thread that finds the buffer as it needs it, and the mutex free, makes one iteration. -/
theorem run_iteration (MAX : ℕ) {N : ℕ} {s : St P C} {t : P ⊕ C} {i : ℕ}
    (hs : s.status t = .run ⟨.head, i⟩) (hi : i < N) (ho : s.owner () = none)
    (hb : (side MAX t).blocked s.mem = false) :
    ∃ as s', (system P C MAX N).Run s as s' ∧
      as.filterMap Action.event = [(side MAX t).event i s.mem] ∧
      s'.status = Function.update s.status t (.run ⟨.head, i + 1⟩) ∧ s'.owner () = none ∧
      s'.mem = (side MAX t).adjust ((side MAX t).slot i s.mem) := by
  have h₁ : Move MAX N s none (s.goto t (.run ⟨.spin, i⟩)) := Move.enter hs hi
  have h₂ : Move MAX N (s.goto t (.run ⟨.spin, i⟩)) none (s.goto t (.run ⟨.lock, i⟩)) := by
    simpa using (Move.clear (t := t) (i := i) (by simp) hb :
      Move MAX N (s.goto t (.run ⟨.spin, i⟩)) none _)
  have h₃ : Move MAX N (s.goto t (.run ⟨.lock, i⟩)) none
      ((s.give () (some t)).goto t (.run ⟨.slot, i⟩)) := by
    simpa using (Move.lock (t := t) (i := i) (by simp) ho :
      Move MAX N (s.goto t (.run ⟨.lock, i⟩)) none _)
  have h₄ : Move MAX N ((s.give () (some t)).goto t (.run ⟨.slot, i⟩))
      (some ((side MAX t).event i s.mem))
      (((s.store ((side MAX t).slot i s.mem)).give () (some t)).goto t (.run ⟨.adjust, i⟩)) := by
    simpa using (Move.slot (t := t) (i := i) (by simp) :
      Move MAX N ((s.give () (some t)).goto t (.run ⟨.slot, i⟩)) _ _)
  set g := (side MAX t).slot i s.mem with hg
  have h₅ : Move MAX N (((s.store g).give () (some t)).goto t (.run ⟨.adjust, i⟩)) none
      (((s.store ((side MAX t).adjust g)).give () (some t)).goto t (.run ⟨.unlock, i⟩)) := by
    simpa using (Move.adjust (t := t) (i := i) (by simp) :
      Move MAX N (((s.store g).give () (some t)).goto t (.run ⟨.adjust, i⟩)) none _)
  set g' := (side MAX t).adjust g with hg'
  have h₆ : Move MAX N (((s.store g').give () (some t)).goto t (.run ⟨.unlock, i⟩)) none
      (((s.store g').give () none).goto t (.run ⟨.head, i + 1⟩)) := by
    simpa using (Move.unlock (t := t) (i := i) (by simp) (by simp) :
      Move MAX N (((s.store g').give () (some t)).goto t (.run ⟨.unlock, i⟩)) none _)
  obtain ⟨a₁, h₁, e₁⟩ := step_of_move h₁
  obtain ⟨a₂, h₂, e₂⟩ := step_of_move h₂
  obtain ⟨a₃, h₃, e₃⟩ := step_of_move h₃
  obtain ⟨a₄, h₄, e₄⟩ := step_of_move h₄
  obtain ⟨a₅, h₅, e₅⟩ := step_of_move h₅
  obtain ⟨a₆, h₆, e₆⟩ := step_of_move h₆
  refine ⟨[a₁, a₂, a₃, a₄, a₅, a₆], _, .cons h₁ (.cons h₂ (.cons h₃ (.cons h₄ (.cons h₅
    (.single h₆))))), ?_, ?_, ?_, ?_⟩ <;> simp [e₁, e₂, e₃, e₄, e₅, e₆]

end SpinBuffer
