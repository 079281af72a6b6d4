/-
**Runs that come to an end.**

A program whose threads only go round bounded loops finishes under every schedule, although no
bound on the number of its steps can be read off its text: a wake-up sends a thread back to a test
it has made before.  This module is the general argument.  A rank of the states pays for the steps,
a label may grant something back, and where a rank decreases the run reaches whatever cannot be
avoided for ever.

A busy-waiting loop takes steps that change nothing.  They are set aside: the system without its
idle steps has the same reachable states.

Main definitions:

* `Lts.Terminal` — no step is possible;
* `Lts.Pays` — a rank that pays for the steps;
* `Lts.active` — the system without its idle steps.

Main results:

* `Lts.Pays.length_le` — a run is no longer than its first state and its labels pay for;
* `Lts.sum_grant` — what labels pay that all grant the same;
* `Lts.exists_run_among` — where every other reachable state can step to a lower rank, the goal can
  be reached from everywhere;
* `Lts.Pays.exists_terminal` — every run can be continued to one that has ended;
* `Lts.Exec.active` — leaving out the idle steps of a run.
-/

import AupPrograms.Lts
import Mathlib.Algebra.Ring.Nat

set_option relaxedAutoImplicit false
set_option autoImplicit false

universe u v w

namespace Lts

variable {S : Type u} {A : Type v} {E : Type w} {T : Lts S A}

/-! ### Ranks -/

/-- No step is possible in `s`. -/
def Terminal (T : Lts S A) (s : S) : Prop := ∀ a s', ¬ T.step s a s'

/-- `rank` pays for every step from a reachable state, up to what the label of the step grants. -/
def Pays (T : Lts S A) (rank : S → ℕ) (grant : A → ℕ) : Prop :=
  ∀ as s a s', T.Exec as s → T.step s a s' → rank s' + 1 ≤ rank s + grant a

/-- **A run is no longer than what pays for it.** -/
theorem Pays.length_le {rank : S → ℕ} {grant : A → ℕ} (h : T.Pays rank grant) {n : ℕ}
    (hinit : ∀ s, T.init s → rank s ≤ n) {as : List A} {s : S} (hr : T.Exec as s) :
    as.length + rank s ≤ n + (as.map grant).sum := by
  refine Exec.invariant (I := fun as s => as.length + rank s ≤ n + (as.map grant).sum) ?_ ?_ hr
  · intro s hs
    simpa using hinit s hs
  · intro as s a s' hr ih hs
    have hpay := h as s a s' hr hs
    simp only [List.length_append, List.length_singleton, List.map_append, List.map_cons,
      List.map_nil, List.sum_append, List.sum_singleton]
    omega

/-- Labels that all grant the same. -/
theorem sum_grant (Q : A → Bool) (n : ℕ) (as : List A) :
    (as.map fun a => if Q a then n else 0).sum = n * as.countP Q := by
  induction as with
  | nil => rfl
  | cons a as ih =>
      rw [List.map_cons, List.sum_cons, ih]
      cases hQ : Q a with
      | true =>
          rw [List.countP_cons_of_pos hQ, if_pos rfl, Nat.mul_succ]
          exact Nat.add_comm _ _
      | false =>
          rw [List.countP_cons_of_neg (by simp [hQ]), if_neg Bool.false_ne_true]
          exact Nat.zero_add _

/-- **Reaching a goal.**  When every reachable state that is not a goal can step to a state of lower
rank, by a label of `P`, a goal can be reached from every reachable state by labels of `P`. -/
theorem exists_run_among {goal : S → Prop} (P : A → Prop) (rank : S → ℕ)
    (hstep : ∀ as s, T.Exec as s → ¬ goal s → ∃ a s', T.step s a s' ∧ P a ∧ rank s' < rank s)
    {as : List A} {s : S} (h : T.Exec as s) :
    ∃ bs s', T.Run s bs s' ∧ (∀ b ∈ bs, P b) ∧ goal s' := by
  induction hn : rank s using Nat.strong_induction_on generalizing as s with
  | _ n ih =>
      by_cases hg : goal s
      · exact ⟨[], s, Run.nil s, List.forall_mem_nil P, hg⟩
      · obtain ⟨a, s₁, hs, ha, hlt⟩ := hstep as s h hg
        obtain ⟨bs, s', hrun, hbs, hg'⟩ := ih (rank s₁) (hn ▸ hlt) (h.trans (Run.single hs)) rfl
        exact ⟨a :: bs, s', hrun.cons hs, List.forall_mem_cons.2 ⟨ha, hbs⟩, hg'⟩

/-- A goal that is reached by any labels. -/
theorem exists_run_of_rank {goal : S → Prop} (rank : S → ℕ)
    (hstep : ∀ as s, T.Exec as s → ¬ goal s → ∃ a s', T.step s a s' ∧ rank s' < rank s)
    {as : List A} {s : S} (h : T.Exec as s) : ∃ bs s', T.Run s bs s' ∧ goal s' := by
  obtain ⟨bs, s', hrun, -, hg⟩ := exists_run_among (fun _ => True) rank (fun as s hr hn => by
    obtain ⟨a, s', hs, hlt⟩ := hstep as s hr hn
    exact ⟨a, s', hs, trivial, hlt⟩) h
  exact ⟨bs, s', hrun, hg⟩

/-- **Every run can be continued until no step is possible.** -/
theorem Pays.exists_terminal {rank : S → ℕ} (h : T.Pays rank fun _ => 0) {as : List A} {s : S}
    (hr : T.Exec as s) : ∃ bs s', T.Run s bs s' ∧ T.Terminal s' := by
  refine exists_run_of_rank rank (fun as s hr hs => ?_) hr
  simp only [Terminal, not_forall, not_not] at hs
  obtain ⟨a, s', hs⟩ := hs
  exact ⟨a, s', hs, h as s a s' hr hs⟩

/-! ### Idle steps -/

/-- The system `T` without the steps that change nothing. -/
def active (T : Lts S A) : Lts S A where
  init := T.init
  step s a s' := T.step s a s' ∧ s ≠ s'

theorem Run.of_active {s s' : S} {as : List A} (h : T.active.Run s as s') : T.Run s as s' := by
  induction h with
  | nil => exact Run.nil _
  | snoc _ hs ih => exact Run.snoc ih hs.1

theorem Exec.of_active {as : List A} {s : S} (h : T.active.Exec as s) : T.Exec as s := by
  obtain ⟨s₀, h₀, hr⟩ := h
  exact ⟨s₀, h₀, hr.of_active⟩

/-- **Leaving out the idle steps** of a run keeps its end, and its events when idle steps have
none. -/
theorem Exec.active (obs : A → Option E)
    (hidle : ∀ as s a, T.Exec as s → T.step s a s → obs a = none) {as : List A} {s : S}
    (h : T.Exec as s) :
    ∃ bs, T.active.Exec bs s ∧ bs.Sublist as ∧ bs.filterMap obs = as.filterMap obs := by
  refine Exec.invariant (I := fun as s => ∃ bs, T.active.Exec bs s ∧ bs.Sublist as ∧
    bs.filterMap obs = as.filterMap obs) ?_ ?_ h
  · intro s hs
    exact ⟨[], Exec.init (T := T.active) hs, List.Sublist.refl _, rfl⟩
  · rintro as s a s' hr ⟨bs, hbs, hsub, hobs⟩ hs
    by_cases heq : s = s'
    · obtain rfl := heq
      refine ⟨bs, hbs, hsub.trans (List.sublist_append_left as [a]), ?_⟩
      simp [hobs, hidle as s a hr hs]
    · refine ⟨bs ++ [a], hbs.trans (Run.single ⟨hs, heq⟩), hsub.append (List.Sublist.refl _), ?_⟩
      simp [List.filterMap_append, hobs]

end Lts
