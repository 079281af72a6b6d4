/-
**Threads that come to an end.**

A thread goes back to a test when it is woken up, so the number of its steps is not bounded by its
own text.  It is bounded together with the others: the signal that woke it up was a step of another
thread.  This module assigns a weight to every location and charges a signal for the wake-up it can
cause; a spurious wake-up, which nobody pays for, is granted.

Main definitions:

* `Pthread.Ranked` — weights of the locations that decrease along the program;
* `Pthread.rank` — what the threads of a state, and its memory, can still pay for;
* `Pthread.refund` — what a spurious wake-up is granted.

Main results:

* `Pthread.Ranked.step` — a step is paid for, or changes nothing;
* `Pthread.Ranked.length_le` — **the number of steps of a run is bounded**, up to its spurious
  wake-ups;
* `Pthread.Ranked.active_length_le` — the same for the steps that change something, where the
  threads may wait busily.
-/

import AupPrograms.Completion
import AupPrograms.Pthread

set_option relaxedAutoImplicit false
set_option autoImplicit false

namespace Pthread

variable {ι L G M C E : Type}

/-! ### Spurious wake-ups -/

/-- The step is a spurious wake-up. -/
def Action.isSpurious : Action ι E → Bool
  | .step _ _ => false
  | .spurious _ => true

/-- A spurious wake-up is paid back, together with the `d + 1` steps that lead back to sleep. -/
def refund (d : ℕ) : Action ι E → ℕ
  | .step _ _ => 0
  | .spurious _ => d + 2

theorem sum_refund (d : ℕ) (as : List (Action ι E)) :
    (as.map (refund d)).sum = (d + 2) * as.countP Action.isSpurious := by
  have hrefund : refund d = fun a : Action ι E => if a.isSpurious then d + 2 else 0 := by
    funext a
    cases a <;> rfl
  rw [hrefund, Lts.sum_grant]

/-! ### Weights -/

/-- The weight of a thread: a sleeper has paid for going to sleep, `d` less than where its wait
returns to, and a woken thread has been paid for by the signal. -/
def rankAt (d : ℕ) (w : ι → L → ℕ) (t : ι) : Status L M C → ℕ
  | .run l => w t l
  | .asleep _ _ l => w t l - d
  | .woken _ l => w t l - d + (d + 1)

/-- What the memory and the threads of a state can still pay for. -/
def rank [Fintype ι] (d : ℕ) (w : ι → L → ℕ) (v : G → ℕ) (s : State ι L G M C) : ℕ :=
  v s.mem + ∑ t, rankAt d w t (s.status t)

section
variable [Fintype ι] (d : ℕ) (w : ι → L → ℕ) (v : G → ℕ) (s : State ι L G M C)

@[simp] theorem rank_give [DecidableEq M] (m : M) (o : Option ι) :
    rank d w v (s.give m o) = rank d w v s := rfl

theorem rank_store (g : G) : rank d w v (s.store g) + v s.mem = rank d w v s + v g := by
  simp only [rank, State.store_mem, State.store_status]
  omega

/-- A thread that moves changes the rank by its own weight. -/
theorem rank_goto [DecidableEq ι] (t : ι) (st : Status L M C) :
    rank d w v (s.goto t st) + rankAt d w t (s.status t) = rank d w v s + rankAt d w t st := by
  have h := Lts.sum_update (rankAt d w) s.status t st
  simp only [rank, State.goto_mem, State.goto_status]
  omega

end

/-- **Weights that decrease along the program.**  A signal pays for the sleeper it wakes up, which
is why a thread may go back to its test. -/
structure Ranked (code : ι → L → Instr L G M C E) (d : ℕ) (w : ι → L → ℕ) : Prop where
  lock : ∀ t l m k, code t l = .lock m k → w t k < w t l
  unlock : ∀ t l m k, code t l = .unlock m k → w t k < w t l
  wait : ∀ t l c m k, code t l = .wait c m k → w t k - d < w t l
  signal : ∀ t l c k, code t l = .signal c k → w t k + (d + 1) < w t l

/-- Every access that a thread can make next decreases the weight of its location and the memory
together. -/
def ActPays (code : ι → L → Instr L G M C E) (w : ι → L → ℕ) (v : G → ℕ)
    (s : State ι L G M C) : Prop :=
  ∀ t l f e k, s.status t = .run l → code t l = .act f e k →
    v (f s.mem) + w t (k s.mem) < v s.mem + w t l

/-- Every access that a thread can make next decreases its weight, or changes nothing. -/
def ActPaysOrIdles (code : ι → L → Instr L G M C E) (w : ι → L → ℕ) (v : G → ℕ)
    (s : State ι L G M C) : Prop :=
  ∀ t l f e k, s.status t = .run l → code t l = .act f e k →
    v (f s.mem) + w t (k s.mem) < v s.mem + w t l ∨ f s.mem = s.mem ∧ k s.mem = l

/-! ### Steps and runs -/

variable [Fintype ι] [DecidableEq ι] [DecidableEq M] {code : ι → L → Instr L G M C E}
  {d : ℕ} {w : ι → L → ℕ} {v : G → ℕ} {s s' s₀ : State ι L G M C} {a : Action ι E}

/-- **A step is paid for**, or it is an access that changes nothing. -/
theorem Ranked.step (h : Ranked code d w) (hact : ActPaysOrIdles code w v s)
    (hs : Step code s a s') :
    rank d w v s' + 1 ≤ rank d w v s + refund d a ∨ s' = s ∧ ¬ ActPays code w v s := by
  cases hs with
  | @lock t l k m hs hc ho =>
      have hlt := h.lock t l m k hc
      have hrank := rank_goto d w v (s.give m (some t)) t (.run k)
      rw [State.give_status, hs, rank_give] at hrank
      simp only [rankAt] at hrank
      exact Or.inl (by simp only [refund]; omega)
  | @unlock t l k m hs hc ho =>
      have hlt := h.unlock t l m k hc
      have hrank := rank_goto d w v (s.give m none) t (.run k)
      rw [State.give_status, hs, rank_give] at hrank
      simp only [rankAt] at hrank
      exact Or.inl (by simp only [refund]; omega)
  | @wait t l k c m hs hc ho =>
      have hlt := h.wait t l c m k hc
      have hrank := rank_goto d w v (s.give m none) t (.asleep c m k)
      rw [State.give_status, hs, rank_give] at hrank
      simp only [rankAt] at hrank
      exact Or.inl (by simp only [refund]; omega)
  | @relock t l m hs ho =>
      have hrank := rank_goto d w v (s.give m (some t)) t (.run l)
      rw [State.give_status, hs, rank_give] at hrank
      simp only [rankAt] at hrank
      exact Or.inl (by simp only [refund]; omega)
  | @wake t u l k l' c m hs hc hu =>
      -- the signal pays for the woken thread as well
      have hlt := h.signal t l c k hc
      have hut : u ≠ t := fun hut => by rw [hut, hs] at hu; cases hu
      have hrank := rank_goto d w v s t (.run k)
      have hrank' := rank_goto d w v (s.goto t (.run k)) u (.woken m l')
      rw [State.goto_status, Function.update_of_ne hut, hu] at hrank'
      rw [hs] at hrank
      simp only [rankAt] at hrank hrank'
      exact Or.inl (by simp only [refund]; omega)
  | @lost t l k c hs hc hn =>
      have hlt := h.signal t l c k hc
      have hrank := rank_goto d w v s t (.run k)
      rw [hs] at hrank
      simp only [rankAt] at hrank
      exact Or.inl (by simp only [refund]; omega)
  | @act t l f e k hs hc =>
      rcases hact t l f e k hs hc with hlt | ⟨hf, hk⟩
      · have hrank := rank_goto d w v (s.store (f s.mem)) t (.run (k s.mem))
        have hmem := rank_store d w v s (f s.mem)
        rw [State.store_status, hs] at hrank
        simp only [rankAt] at hrank
        exact Or.inl (by simp only [refund]; omega)
      · refine Or.inr ⟨by rw [hf, hk, State.store_self, State.goto_self hs], fun hpays => ?_⟩
        have hlt := hpays t l f e k hs hc
        rw [hf, hk] at hlt
        exact lt_irrefl _ hlt
  | @spurious t l c m hs =>
      have hrank := rank_goto d w v s t (.woken m l)
      rw [hs] at hrank
      simp only [rankAt] at hrank
      exact Or.inl (by simp only [refund]; omega)

/-- Where every access pays, every step does. -/
theorem Ranked.pays (h : Ranked code d w)
    (hact : ∀ as s, (system code s₀).Exec as s → ActPays code w v s) :
    (system code s₀).Pays (rank d w v) (refund d) := by
  intro as s a s' hr hs
  have hpays := hact as s hr
  rcases h.step (fun t l f e k hs hc => Or.inl (hpays t l f e k hs hc)) hs with hle | ⟨-, hno⟩
  · exact hle
  · exact absurd hpays hno

/-- Where an access pays or changes nothing, every step that changes something pays. -/
theorem Ranked.active_pays (h : Ranked code d w)
    (hact : ∀ as s, (system code s₀).Exec as s → ActPaysOrIdles code w v s) :
    (system code s₀).active.Pays (rank d w v) (refund d) := by
  intro as s a s' hr hs
  rcases h.step (hact as s hr.of_active) hs.1 with hle | ⟨rfl, -⟩
  · exact hle
  · exact absurd rfl hs.2

/-- **The number of steps of a run is bounded** by what the initial state pays for and `d + 2`
steps for each spurious wake-up. -/
theorem Ranked.length_le (h : Ranked code d w)
    (hact : ∀ as s, (system code s₀).Exec as s → ActPays code w v s)
    {as : List (Action ι E)} (hr : (system code s₀).Exec as s) :
    as.length + rank d w v s ≤ rank d w v s₀ + (d + 2) * as.countP Action.isSpurious := by
  rw [← sum_refund]
  exact (h.pays hact).length_le (fun s hs => by rw [hs]) hr

/-- The same for the steps that change something. -/
theorem Ranked.active_length_le (h : Ranked code d w)
    (hact : ∀ as s, (system code s₀).Exec as s → ActPaysOrIdles code w v s)
    {as : List (Action ι E)} (hr : (system code s₀).active.Exec as s) :
    as.length + rank d w v s ≤ rank d w v s₀ + (d + 2) * as.countP Action.isSpurious := by
  rw [← sum_refund]
  exact (h.active_pays hact).length_le (fun s hs => by rw [hs]) hr

/-- An own step of a thread lowers the rank, unless it changes nothing. -/
theorem Ranked.rank_lt (h : Ranked code d w) (hact : ActPaysOrIdles code w v s) {t : ι}
    {e : Option E} (hs : Step code s (.step t e) s') (hne : s' ≠ s) :
    rank d w v s' < rank d w v s := by
  rcases h.step hact hs with hle | ⟨heq, -⟩
  · exact hle
  · exact absurd heq hne

end Pthread
