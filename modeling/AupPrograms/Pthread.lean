/-
**Threads with mutexes and condition variables.**

A program of this kind is given by what each thread does at each of its locations: lock or unlock a
mutex, wait on or signal a condition variable, access the shared memory once, or exit.  This module
gives such programs their interleaving semantics and proves what does not depend on the program.

The rules of the condition variable are the ones the threads library documents: a wait releases the
mutex and falls asleep in one step; a signal wakes one arbitrary sleeper, and is lost when there is
none; a sleeper may also wake up for no reason; a woken thread has to lock the mutex again before it
goes on.

Main definitions:

* `Pthread.Instr`, `Pthread.Status`, `Pthread.State` — instructions, thread states, system states;
* `Pthread.Step`, `Pthread.system` — the interleaving semantics, as an `Lts`;
* `Pthread.Discipline` — an assignment of the mutexes held at each location that fits the program;
* `Pthread.Owned` — the owner of each mutex is exactly the thread whose location holds it.

Main results:

* `Pthread.owned` — **lock discipline**: in every reachable state the owners are as annotated;
* `Pthread.Owned.eq` — mutual exclusion;
* `Pthread.Owned.enabled` — a thread that is neither asleep nor exited and does not wait for a taken
  mutex can take a step;
* `Pthread.Owned.exists_enabled` — where nobody asks for a second mutex, an awake thread that has
  not exited suffices for some thread to be able to step.
-/

import AupPrograms.Lts
import Mathlib.Algebra.BigOperators.Group.Finset.Basic
import Mathlib.Data.Fintype.BigOperators
import Mathlib.Logic.Function.Basic

set_option relaxedAutoImplicit false
set_option autoImplicit false

namespace Pthread

/-- What a thread does at a location.  `L` are the locations, `G` the shared memories, `M` the
mutexes, `C` the condition variables and `E` the visible events. -/
inductive Instr (L G M C E : Type)
  /-- Lock a mutex. -/
  | lock (m : M) (k : L)
  /-- Unlock a mutex. -/
  | unlock (m : M) (k : L)
  /-- Wait on a condition variable, releasing a mutex; `k` is where the wait returns to. -/
  | wait (c : C) (m : M) (k : L)
  /-- Signal a condition variable. -/
  | signal (c : C) (k : L)
  /-- One access to the shared memory: its effect, its event, and where to go on. -/
  | act (f : G → G) (e : G → Option E) (k : G → L)
  /-- The thread has exited. -/
  | exit

/-- Where a thread stands. -/
inductive Status (L M C : Type)
  /-- It is about to perform the instruction at `l`. -/
  | run (l : L)
  /-- It sleeps on `c`; the wait will lock `m` again and return to `l`. -/
  | asleep (c : C) (m : M) (l : L)
  /-- It has been woken up, and has to lock `m` before it returns to `l`. -/
  | woken (m : M) (l : L)

/-- The location a thread is at, or will return to. -/
def Status.loc {L M C : Type} : Status L M C → L
  | .run l | .asleep _ _ l | .woken _ l => l

@[simp] theorem Status.loc_run {L M C : Type} (l : L) : (Status.run l : Status L M C).loc = l := rfl

@[simp] theorem Status.loc_asleep {L M C : Type} (c : C) (m : M) (l : L) :
    (Status.asleep c m l).loc = l := rfl

@[simp] theorem Status.loc_woken {L M C : Type} (m : M) (l : L) :
    (Status.woken m l : Status L M C).loc = l := rfl

/-- A thread is blocked in a wait. -/
def Status.IsAsleep {L M C : Type} : Status L M C → Prop
  | .asleep _ _ _ => True
  | _ => False

/-- The state of a system of threads `ι`. -/
structure State (ι L G M C : Type) where
  /-- Where each thread stands. -/
  status : ι → Status L M C
  /-- The thread that holds each mutex. -/
  owner : M → Option ι
  /-- The shared memory. -/
  mem : G

/-- The label of a step: which thread moves, and the event it performs. -/
inductive Action (ι E : Type)
  /-- A thread performs its instruction, or locks the mutex of a wait again. -/
  | step (t : ι) (e : Option E)
  /-- A sleeper wakes up for no reason. -/
  | spurious (t : ι)

/-- The visible event of a label. -/
def Action.event {ι E : Type} : Action ι E → Option E
  | .step _ e => e
  | .spurious _ => none

@[simp] theorem Action.event_step {ι E : Type} (t : ι) (e : Option E) :
    (Action.step t e).event = e := rfl

@[simp] theorem Action.event_spurious {ι E : Type} (t : ι) :
    (Action.spurious t : Action ι E).event = none := rfl

variable {ι L G M C E : Type}

/-- The same state with thread `t` standing at `st`. -/
def State.goto [DecidableEq ι] (s : State ι L G M C) (t : ι) (st : Status L M C) :
    State ι L G M C :=
  { s with status := Function.update s.status t st }

/-- The same state with mutex `m` held by `o`. -/
def State.give [DecidableEq M] (s : State ι L G M C) (m : M) (o : Option ι) : State ι L G M C :=
  { s with owner := Function.update s.owner m o }

/-- The same state with shared memory `g`. -/
def State.store (s : State ι L G M C) (g : G) : State ι L G M C := { s with mem := g }

section StateLemmas
variable (s : State ι L G M C) (t : ι) (st : Status L M C) (m : M) (o : Option ι) (g : G)

@[simp] theorem State.store_status : (s.store g).status = s.status := rfl
@[simp] theorem State.store_owner : (s.store g).owner = s.owner := rfl
@[simp] theorem State.store_mem : (s.store g).mem = g := rfl
@[simp] theorem State.store_self : s.store s.mem = s := rfl
@[simp] theorem State.goto_status [DecidableEq ι] :
    (s.goto t st).status = Function.update s.status t st := rfl
@[simp] theorem State.goto_owner [DecidableEq ι] : (s.goto t st).owner = s.owner := rfl
@[simp] theorem State.goto_mem [DecidableEq ι] : (s.goto t st).mem = s.mem := rfl
@[simp] theorem State.give_status [DecidableEq M] : (s.give m o).status = s.status := rfl
@[simp] theorem State.give_owner [DecidableEq M] :
    (s.give m o).owner = Function.update s.owner m o := rfl
@[simp] theorem State.give_mem [DecidableEq M] : (s.give m o).mem = s.mem := rfl

/- The updates are brought into one order: first the memory, then the owners, then the threads. -/
@[simp] theorem State.store_store (g' : G) : (s.store g).store g' = s.store g' := rfl
@[simp] theorem State.store_give [DecidableEq M] :
    (s.give m o).store g = (s.store g).give m o := rfl
@[simp] theorem State.store_goto [DecidableEq ι] :
    (s.goto t st).store g = (s.store g).goto t st := rfl
@[simp] theorem State.give_goto [DecidableEq ι] [DecidableEq M] :
    (s.goto t st).give m o = (s.give m o).goto t st := rfl
@[simp] theorem State.give_give [DecidableEq M] (o' : Option ι) :
    (s.give m o).give m o' = s.give m o' := by simp [State.give]
@[simp] theorem State.goto_goto [DecidableEq ι] (st' : Status L M C) :
    (s.goto t st).goto t st' = s.goto t st' := by simp [State.goto]

/-- Giving a mutex to its owner changes nothing. -/
theorem State.give_self [DecidableEq M] {s : State ι L G M C} {m : M} {o : Option ι}
    (h : s.owner m = o) : s.give m o = s := by
  obtain ⟨status, owner, mem⟩ := s
  simp only [State.give, ← h, Function.update_eq_self]

/-- Moving a thread to where it stands changes nothing. -/
theorem State.goto_self [DecidableEq ι] {s : State ι L G M C} {t : ι} {st : Status L M C}
    (h : s.status t = st) : s.goto t st = s := by
  obtain ⟨status, owner, mem⟩ := s
  simp only [State.goto, ← h, Function.update_eq_self]

end StateLemmas

/-- A quantity summed over the threads changes by what the moving thread contributes. -/
theorem State.sum_goto [DecidableEq ι] [Fintype ι] (w : ι → Status L M C → ℤ)
    (s : State ι L G M C) (t : ι) (st : Status L M C) :
    ∑ u, w u ((s.goto t st).status u) = ∑ u, w u (s.status u) + (w t st - w t (s.status t)) := by
  have h := Lts.sum_update w s.status t st
  change ∑ u, w u (Function.update s.status t st u) = _
  omega

/-! ### Lock discipline -/

/-- `held t l m`, the mutexes held at each location, fits the program `code`. -/
structure Discipline (code : ι → L → Instr L G M C E) (held : ι → L → M → Prop) : Prop where
  /-- Locking adds the mutex. -/
  lock : ∀ t l m k, code t l = .lock m k → ∀ m', held t k m' ↔ m' = m ∨ held t l m'
  /-- Unlocking removes a mutex that is held. -/
  unlock : ∀ t l m k, code t l = .unlock m k →
    held t l m ∧ ∀ m', held t k m' ↔ m' ≠ m ∧ held t l m'
  /-- A wait is entered and left with its mutex held. -/
  wait : ∀ t l c m k, code t l = .wait c m k → held t l m ∧ ∀ m', held t k m' ↔ held t l m'
  /-- Signalling changes nothing. -/
  signal : ∀ t l c k, code t l = .signal c k → ∀ m', held t k m' ↔ held t l m'
  /-- Accessing the memory changes nothing. -/
  act : ∀ t l f e k, code t l = .act f e k → ∀ g m', held t (k g) m' ↔ held t l m'

/-- The mutexes held by a thread in its current status: a thread in a wait does not hold the mutex
of the wait. -/
def heldAt (held : ι → L → M → Prop) (t : ι) : Status L M C → M → Prop
  | .run l, m => held t l m
  | .asleep _ m₀ l, m | .woken m₀ l, m => m ≠ m₀ ∧ held t l m

/-- The thread's wait, if it is in one, returns to a location that holds the mutex of the wait. -/
def Returns (held : ι → L → M → Prop) (t : ι) : Status L M C → Prop
  | .run _ => True
  | .asleep _ m l | .woken m l => held t l m

/-- **Every mutex is owned by exactly the thread whose location holds it.** -/
structure Owned (held : ι → L → M → Prop) (s : State ι L G M C) : Prop where
  /-- The owners are the holders. -/
  owner : ∀ m t, s.owner m = some t ↔ heldAt held t (s.status t) m
  /-- Waits return with their mutex. -/
  returns : ∀ t, Returns held t (s.status t)

variable {held : ι → L → M → Prop} {s s' : State ι L G M C}

/-- **Mutual exclusion.** -/
theorem Owned.eq (h : Owned held s) {m : M} {t u : ι} (ht : heldAt held t (s.status t) m)
    (hu : heldAt held u (s.status u) m) : t = u := by
  have h₁ := (h.owner m t).2 ht
  rw [(h.owner m u).2 hu] at h₁
  exact (Option.some_inj.1 h₁).symm

/-- The owners do not depend on the shared memory. -/
theorem Owned.store (h : Owned held s) (g : G) : Owned held (s.store g) := ⟨h.owner, h.returns⟩

variable [DecidableEq ι]

/-- Moving one thread without touching the owners, between statuses that hold the same. -/
theorem Owned.goto (h : Owned held s) {t : ι} {st : Status L M C}
    (hst : ∀ m, heldAt held t st m ↔ heldAt held t (s.status t) m) (hr : Returns held t st) :
    Owned held (s.goto t st) := by
  constructor
  · intro m u
    by_cases hu : u = t
    · subst hu
      simpa [hst] using h.owner m u
    · simpa [Function.update_of_ne hu] using h.owner m u
  · intro u
    by_cases hu : u = t
    · subst hu; simpa using hr
    · simpa [Function.update_of_ne hu] using h.returns u

variable [DecidableEq M]

/-- A free mutex is taken by a thread that then holds it. -/
theorem Owned.take (h : Owned held s) {t : ι} {l : L} {m : M} (hm : s.owner m = none)
    (hst : ∀ m', held t l m' ↔ m' = m ∨ heldAt held t (s.status t) m') :
    Owned held ((s.give m (some t)).goto t (.run l)) := by
  constructor
  · -- nobody held `m` before, and the other mutexes stay where they are
    intro m' u
    have hfree : ¬ heldAt held u (s.status u) m := fun hu => by simp [(h.owner m u).2 hu] at hm
    by_cases hm' : m' = m <;> by_cases hu : u = t
    · subst hm' hu; simp [heldAt, hst]
    · subst hm'; simp [Function.update_of_ne hu, hfree, Ne.symm hu]
    · subst hu; simp [heldAt, hst, hm', h.owner m' u]
    · simp [Function.update_of_ne hm', Function.update_of_ne hu, h.owner m' u]
  · intro u
    by_cases hu : u = t
    · subst hu; simp [Returns]
    · simpa [Function.update_of_ne hu] using h.returns u

/-- A mutex is released by its owner. -/
theorem Owned.drop (h : Owned held s) {t : ι} {st : Status L M C} {m : M}
    (hm : s.owner m = some t)
    (hst : ∀ m', heldAt held t st m' ↔ m' ≠ m ∧ heldAt held t (s.status t) m')
    (hr : Returns held t st) : Owned held ((s.give m none).goto t st) := by
  -- by mutual exclusion nobody else holds `m` after it is released
  have honly : ∀ u, heldAt held u (s.status u) m → u = t := fun u hu =>
    h.eq hu ((h.owner m t).1 hm)
  constructor
  · intro m' u
    by_cases hm' : m' = m <;> by_cases hu : u = t
    · subst hm' hu; simp [hst]
    · subst hm'; simpa [Function.update_of_ne hu] using fun hh => hu (honly u hh)
    · subst hu; simp [hst, hm', h.owner m' u]
    · simp [Function.update_of_ne hm', Function.update_of_ne hu, h.owner m' u]
  · intro u
    by_cases hu : u = t
    · subst hu; simpa using hr
    · simpa [Function.update_of_ne hu] using h.returns u

/-! ### The interleaving semantics -/

/-- One step of one thread. -/
inductive Step (code : ι → L → Instr L G M C E) :
    State ι L G M C → Action ι E → State ι L G M C → Prop
  | lock {s : State ι L G M C} {t : ι} {l k : L} {m : M} (hs : s.status t = .run l)
      (hc : code t l = .lock m k) (ho : s.owner m = none) :
      Step code s (.step t none) ((s.give m (some t)).goto t (.run k))
  | unlock {s : State ι L G M C} {t : ι} {l k : L} {m : M} (hs : s.status t = .run l)
      (hc : code t l = .unlock m k) (ho : s.owner m = some t) :
      Step code s (.step t none) ((s.give m none).goto t (.run k))
  | wait {s : State ι L G M C} {t : ι} {l k : L} {c : C} {m : M} (hs : s.status t = .run l)
      (hc : code t l = .wait c m k) (ho : s.owner m = some t) :
      Step code s (.step t none) ((s.give m none).goto t (.asleep c m k))
  | relock {s : State ι L G M C} {t : ι} {l : L} {m : M} (hs : s.status t = .woken m l)
      (ho : s.owner m = none) :
      Step code s (.step t none) ((s.give m (some t)).goto t (.run l))
  | wake {s : State ι L G M C} {t u : ι} {l k l' : L} {c : C} {m : M} (hs : s.status t = .run l)
      (hc : code t l = .signal c k) (hu : s.status u = .asleep c m l') :
      Step code s (.step t none) ((s.goto t (.run k)).goto u (.woken m l'))
  | lost {s : State ι L G M C} {t : ι} {l k : L} {c : C} (hs : s.status t = .run l)
      (hc : code t l = .signal c k) (hn : ∀ u m l', s.status u ≠ .asleep c m l') :
      Step code s (.step t none) (s.goto t (.run k))
  | act {s : State ι L G M C} {t : ι} {l : L} {f : G → G} {e : G → Option E} {k : G → L}
      (hs : s.status t = .run l) (hc : code t l = .act f e k) :
      Step code s (.step t (e s.mem)) ((s.store (f s.mem)).goto t (.run (k s.mem)))
  | spurious {s : State ι L G M C} {t : ι} {l : L} {c : C} {m : M}
      (hs : s.status t = .asleep c m l) :
      Step code s (.spurious t) (s.goto t (.woken m l))

/-- The system of threads running `code` from one initial state. -/
def system (code : ι → L → Instr L G M C E) (s₀ : State ι L G M C) :
    Lts (State ι L G M C) (Action ι E) where
  init s := s = s₀
  step := Step code

variable {code : ι → L → Instr L G M C E}

/-- A step keeps the owners as annotated. -/
theorem Owned.step (hd : Discipline code held) (h : Owned held s) {a : Action ι E}
    (hs : Step code s a s') : Owned held s' := by
  cases hs with
  | lock hs hc ho => exact h.take ho fun m' => by rw [hs]; exact hd.lock _ _ _ _ hc m'
  | unlock hs hc ho =>
      exact h.drop ho (fun m' => by rw [hs]; exact (hd.unlock _ _ _ _ hc).2 m') trivial
  | wait hs hc ho =>
      have hw := hd.wait _ _ _ _ _ hc
      refine h.drop ho (fun m' => ?_) ((hw.2 _).2 hw.1)
      rw [hs]
      exact and_congr_right fun _ => hw.2 m'
  | @relock t l m hs ho =>
      -- the location the wait returns to holds the mutex of the wait
      have hret : held t l m := by simpa [hs, Returns] using h.returns t
      refine h.take ho fun m' => ?_
      rw [hs]
      by_cases hm' : m' = m
      · simp [hm', hret]
      · simp [hm', heldAt]
  | @wake t u l k l' c m hs hc hu =>
      have hut : u ≠ t := fun hut => by rw [hut, hs] at hu; cases hu
      have h₁ : Owned held (s.goto t (.run k)) :=
        h.goto (fun m' => by rw [hs]; exact hd.signal _ _ _ _ hc m') trivial
      have hu₁ : (s.goto t (.run k)).status u = .asleep c m l' := by
        simp [Function.update_of_ne hut, hu]
      refine h₁.goto (fun m' => by rw [hu₁]; rfl) ?_
      simpa [hu₁, Returns] using h₁.returns u
  | lost hs hc _ =>
      exact h.goto (fun m' => by rw [hs]; exact hd.signal _ _ _ _ hc m') trivial
  | act hs hc =>
      refine (h.store _).goto (fun m' => ?_) trivial
      rw [State.store_status, hs]
      exact hd.act _ _ _ _ _ hc _ m'
  | @spurious t l c m hs =>
      refine h.goto (fun m' => by rw [hs]; rfl) ?_
      simpa [hs, Returns] using h.returns t

/-- **Lock discipline**: the owners are as annotated in every reachable state. -/
theorem owned (hd : Discipline code held) {s₀ : State ι L G M C} (h₀ : Owned held s₀)
    {as : List (Action ι E)} {s : State ι L G M C} (h : (system code s₀).Exec as s) :
    Owned held s :=
  Lts.Exec.state_invariant (T := system code s₀) (fun s hs => by rw [hs]; exact h₀)
    (fun _ _ _ hI hs => hI.step hd hs) h

/-! ### Progress -/

/-- Thread `t` can take a step of its own. -/
def Enabled (code : ι → L → Instr L G M C E) (s : State ι L G M C) (t : ι) : Prop :=
  ∃ e s', Step code s (.step t e) s'

/-- **A thread about to perform an instruction can do so**, unless it has exited or the mutex it
asks for is taken. -/
theorem Owned.enabled (hd : Discipline code held) (h : Owned held s) {t : ι} {l : L}
    (hs : s.status t = .run l) (hexit : code t l ≠ .exit)
    (hfree : ∀ m k, code t l = .lock m k → s.owner m = none) : Enabled code s t := by
  have howner : ∀ m, held t l m → s.owner m = some t := fun m hm => by
    rw [h.owner, hs]; exact hm
  cases hc : code t l with
  | lock m k => exact ⟨_, _, Step.lock hs hc (hfree m k hc)⟩
  | unlock m k => exact ⟨_, _, Step.unlock hs hc (howner m (hd.unlock _ _ _ _ hc).1)⟩
  | wait c m k => exact ⟨_, _, Step.wait hs hc (howner m (hd.wait _ _ _ _ _ hc).1)⟩
  | signal c k =>
      by_cases hn : ∃ u m l', s.status u = .asleep c m l'
      · obtain ⟨u, m, l', hu⟩ := hn
        exact ⟨_, _, Step.wake hs hc hu⟩
      · push Not at hn
        exact ⟨_, _, Step.lost hs hc hn⟩
  | act f e k => exact ⟨_, _, Step.act hs hc⟩
  | exit => exact absurd hc hexit

/-- A woken thread can go on as soon as its mutex is free. -/
theorem enabled_of_woken {t : ι} {m : M} {l : L} (hs : s.status t = .woken m l)
    (ho : s.owner m = none) : Enabled code s t := ⟨_, _, Step.relock hs ho⟩

/-- Threads hold at most one mutex at a time, and neither ask for another one nor exit with it. -/
structure Flat (code : ι → L → Instr L G M C E) (held : ι → L → M → Prop) : Prop where
  unique : ∀ t l m m', held t l m → held t l m' → m = m'
  no_lock : ∀ t l m m' k, held t l m → code t l ≠ .lock m' k
  no_exit : ∀ t l m, held t l m → code t l ≠ .exit

/-- **The holder of a mutex can step.** -/
theorem Owned.enabled_of_owner (hd : Discipline code held) (hf : Flat code held) (h : Owned held s)
    {m : M} {t : ι} (ho : s.owner m = some t) : Enabled code s t := by
  have hheld := (h.owner m t).1 ho
  have hret := h.returns t
  cases hs : s.status t with
  | run l =>
      rw [hs] at hheld
      exact h.enabled hd hs (hf.no_exit t l m hheld) fun m' k hc =>
        absurd hc (hf.no_lock t l m m' k hheld)
  | asleep c m₀ l | woken m₀ l =>
      -- a wait returns to a location that holds its mutex, and that is the only one
      rw [hs] at hheld hret
      exact absurd (hf.unique t l m m₀ hheld.2 hret) hheld.1

/-- **A thread that is awake and has not exited can step, or waits for one that can.** -/
theorem Owned.exists_enabled (hd : Discipline code held) (hf : Flat code held) (h : Owned held s)
    {t : ι} (hawake : ¬ (s.status t).IsAsleep)
    (hexit : ∀ l, s.status t = .run l → code t l ≠ .exit) : ∃ u, Enabled code s u := by
  by_cases howned : ∃ m u, s.owner m = some u
  · obtain ⟨m, u, ho⟩ := howned
    exact ⟨u, h.enabled_of_owner hd hf ho⟩
  · have hfree : ∀ m, s.owner m = none := fun m =>
      Option.eq_none_iff_forall_ne_some.2 fun u ho => howned ⟨m, u, ho⟩
    refine ⟨t, ?_⟩
    cases hs : s.status t with
    | run l => exact h.enabled hd hs (hexit l hs) fun m _ _ => hfree m
    | asleep c m l => rw [hs] at hawake; exact absurd trivial hawake
    | woken m l => exact enabled_of_woken hs (hfree m)

end Pthread
