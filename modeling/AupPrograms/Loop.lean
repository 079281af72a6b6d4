/-
**Loops that need not terminate.**

A loop is given by its body: from a state it either goes on with another state, or leaves the loop
with a result.  It is run with fuel, and *returns* a result when some amount of fuel gives it.

Main definitions:

* `Loop.run` — running a loop with fuel;
* `Loop.Returns` — the loop returns a result;
* `Loop.Next`, `Loop.Reaches` — the relations of one iteration and of any number of them.

Main results:

* `Loop.unique_of_mono`, `Loop.Returns.unique` — what more fuel does not change is one result;
* `Loop.returns_of_goesOn`, `Loop.returns_of_leaves` — one iteration;
* `Loop.returns_of_sequence` — the rule for a counted loop;
* `Loop.Returns.of_invariant` — what an invariant says of the result;
* `Loop.exists_returns_iff_acc` — **a loop returns exactly when its iterations are well founded**;
* `Loop.returns_iff_reaches` — a result is returned where an iteration leaves the loop with it;
* `Loop.exists_returns_of_measure` — a loop whose iterations decrease a number returns;
* `Loop.not_returns_of_invariant` — a loop whose invariant lets it go on forever does not return;
* `Loop.exists_foldlM_cons` — the fuel of several loops one after the other.
-/

import Mathlib.Data.List.Basic
import Mathlib.Data.Nat.Notation
import Mathlib.Logic.Relation
import Mathlib.Order.WellFounded

set_option relaxedAutoImplicit false
set_option autoImplicit false

universe u v

namespace Loop

variable {σ : Type u} {ρ : Type v}

/-- Running a loop: each iteration uses up one unit of fuel. -/
def run (body : σ → σ ⊕ ρ) : ℕ → σ → Option ρ
  | 0, _ => none
  | n + 1, s =>
      match body s with
      | .inl s' => run body n s'
      | .inr r => some r

/-- The loop returns `r` when it is started in `s`. -/
def Returns (body : σ → σ ⊕ ρ) (s : σ) (r : ρ) : Prop := ∃ n, run body n s = some r

variable {body : σ → σ ⊕ ρ}

theorem run_succ_inl {s s' : σ} (h : body s = .inl s') (n : ℕ) :
    run body (n + 1) s = run body n s' := by simp only [run, h]

theorem run_succ_inr {s : σ} {r : ρ} (h : body s = .inr r) (n : ℕ) :
    run body (n + 1) s = some r := by simp only [run, h]

/-- More fuel does not change a result. -/
theorem run_mono {n m : ℕ} {s : σ} {r : ρ} (hle : n ≤ m) (h : run body n s = some r) :
    run body m s = some r := by
  induction n generalizing m s with
  | zero => cases h
  | succ n ih =>
      obtain ⟨m, rfl⟩ := Nat.exists_eq_succ_of_ne_zero (by omega : m ≠ 0)
      cases hb : body s with
      | inl s' =>
          rw [run_succ_inl hb] at h
          rw [run_succ_inl hb]
          exact ih (by omega) h
      | inr r' =>
          rw [run_succ_inr hb] at h
          rw [run_succ_inr hb, h]

/-- What some fuel computes is computed by any fuel that computes anything, if more fuel does not
change it. -/
theorem unique_of_mono {f : ℕ → Option ρ} (hmono : ∀ n m r, n ≤ m → f n = some r → f m = some r)
    {r r' : ρ} (h : ∃ n, f n = some r) (h' : ∃ n, f n = some r') : r = r' := by
  obtain ⟨n, hn⟩ := h
  obtain ⟨m, hm⟩ := h'
  have hn' := hmono n (max n m) r (Nat.le_max_left n m) hn
  rw [hmono m (max n m) r' (Nat.le_max_right n m) hm] at hn'
  exact (Option.some_inj.1 hn').symm

/-- **A loop returns at most one result.** -/
theorem Returns.unique {s : σ} {r r' : ρ} (h : Returns body s r) (h' : Returns body s r') :
    r = r' :=
  unique_of_mono (fun _ _ _ hle => run_mono hle) h h'

/-- An iteration that goes on. -/
theorem returns_of_goesOn {s s' : σ} (h : body s = .inl s') {r : ρ} :
    Returns body s r ↔ Returns body s' r := by
  constructor
  · rintro ⟨n, hn⟩
    cases n with
    | zero => cases hn
    | succ n => exact ⟨n, by rwa [run_succ_inl h] at hn⟩
  · rintro ⟨n, hn⟩
    exact ⟨n + 1, by rwa [run_succ_inl h]⟩

/-- An iteration that leaves the loop. -/
theorem returns_of_leaves {s : σ} {r r' : ρ} (h : body s = .inr r) :
    Returns body s r' ↔ r' = r := by
  have hr : Returns body s r := ⟨1, run_succ_inr h 0⟩
  exact ⟨fun hr' => hr'.unique hr, fun heq => heq ▸ hr⟩

/-- **The rule for a counted loop**: `k` iterations through the states `x 0, …, x k`, the last of
which leaves the loop. -/
theorem returns_of_sequence {x : ℕ → σ} {k : ℕ} {r : ρ}
    (hstep : ∀ j, j < k → body (x j) = .inl (x (j + 1))) (hend : body (x k) = .inr r) :
    Returns body (x 0) r := by
  induction k generalizing x with
  | zero => exact (returns_of_leaves hend).2 rfl
  | succ k ih =>
      rw [returns_of_goesOn (hstep 0 (Nat.succ_pos k))]
      exact ih (x := fun j => x (j + 1)) (fun j hj => hstep (j + 1) (Nat.succ_lt_succ hj)) hend

/-- **The rule for an invariant**: what holds at the start and is kept by each iteration holds where
the loop is left. -/
theorem Returns.of_invariant {I : σ → Prop} {R : ρ → Prop}
    (hnext : ∀ s s', I s → body s = .inl s' → I s') (hend : ∀ s r, I s → body s = .inr r → R r)
    {s : σ} {r : ρ} (hs : I s) (h : Returns body s r) : R r := by
  obtain ⟨n, hn⟩ := h
  induction n generalizing s with
  | zero => cases hn
  | succ n ih =>
      cases hb : body s with
      | inl s' =>
          rw [run_succ_inl hb] at hn
          exact ih (hnext s s' hs hb) hn
      | inr r' =>
          rw [run_succ_inr hb] at hn
          obtain rfl := Option.some_inj.1 hn
          exact hend s r' hs hb

/-- One iteration leads from `s` to `s'`. -/
def Next (body : σ → σ ⊕ ρ) (s' s : σ) : Prop := body s = .inl s'

/-- **A loop returns exactly when its iterations are well founded.** -/
theorem exists_returns_iff_acc {s : σ} : (∃ r, Returns body s r) ↔ Acc (Next body) s := by
  constructor
  · rintro ⟨r, n, hn⟩
    induction n generalizing s with
    | zero => cases hn
    | succ n ih =>
        refine Acc.intro s fun s' hs' => ih ?_
        rwa [run_succ_inl hs'] at hn
  · intro h
    induction h with
    | intro s _ ih =>
        cases hb : body s with
        | inl s' =>
            obtain ⟨r, hr⟩ := ih s' hb
            exact ⟨r, (returns_of_goesOn hb).2 hr⟩
        | inr r => exact ⟨r, (returns_of_leaves hb).2 rfl⟩

/-- Some iterations lead from `s` to `s'`. -/
def Reaches (body : σ → σ ⊕ ρ) : σ → σ → Prop := Relation.ReflTransGen fun s s' => Next body s' s

/-- **A result is returned where an iteration leaves the loop with it.** -/
theorem returns_iff_reaches {s : σ} {r : ρ} :
    Returns body s r ↔ ∃ s', Reaches body s s' ∧ body s' = .inr r := by
  constructor
  · intro h
    refine h.of_invariant (I := Reaches body s) (R := fun r => ∃ s', Reaches body s s' ∧
      body s' = .inr r) ?_ ?_ Relation.ReflTransGen.refl
    · intro s₁ s₂ hs hb
      exact hs.tail hb
    · intro s₁ r hs hb
      exact ⟨s₁, hs, hb⟩
  · rintro ⟨s', hs, hb⟩
    induction hs using Relation.ReflTransGen.head_induction_on with
    | refl => exact (returns_of_leaves hb).2 rfl
    | head hnext _ ih => exact (returns_of_goesOn hnext).2 ih

/-- What holds at the start and is kept by each iteration holds at every iteration. -/
theorem Reaches.of_invariant {I : σ → Prop} (hnext : ∀ s s', I s → body s = .inl s' → I s')
    {s s' : σ} (hs : I s) (h : Reaches body s s') : I s' := by
  induction h with
  | refl => exact hs
  | tail _ hstep ih => exact hnext _ _ ih hstep

/-- **The rule for a measure**: a loop whose iterations decrease a number returns. -/
theorem exists_returns_of_measure {I : σ → Prop} (m : σ → ℕ)
    (hnext : ∀ s s', I s → body s = .inl s' → I s' ∧ m s' < m s) {s : σ} (hs : I s) :
    ∃ r, Returns body s r := by
  rw [exists_returns_iff_acc]
  induction hn : m s using Nat.strong_induction_on generalizing s with
  | _ n ih =>
      refine Acc.intro s fun s' hs' => ?_
      obtain ⟨hI, hlt⟩ := hnext s s' hs hs'
      exact ih (m s') (hn ▸ hlt) hI rfl

/-- A loop that can always go on does not return. -/
theorem not_returns_of_invariant {I : σ → Prop} (h : ∀ s, I s → ∃ s', body s = .inl s' ∧ I s')
    {s : σ} (hs : I s) (r : ρ) : ¬ Returns body s r := by
  rintro ⟨n, hn⟩
  induction n generalizing s with
  | zero => cases hn
  | succ n ih =>
      obtain ⟨s', hb, hs'⟩ := h s hs
      rw [run_succ_inl hb] at hn
      exact ih hs' hn

/-! ### Loops one after the other -/

/-- More fuel does not change the result of a list of computations. -/
theorem foldlM_mono {τ : Type u} {ι : Type v} {f : ℕ → τ → ι → Option τ}
    (hmono : ∀ n m s i s', n ≤ m → f n s i = some s' → f m s i = some s') {n m : ℕ} (hle : n ≤ m)
    {s s' : τ} {is : List ι} (h : is.foldlM (f n) s = some s') : is.foldlM (f m) s = some s' := by
  induction is generalizing s with
  | nil => exact h
  | cons i is ih =>
      rw [List.foldlM_cons] at h ⊢
      obtain ⟨s₁, h₁, h₂⟩ := Option.bind_eq_some_iff.1 h
      rw [hmono n m s i s₁ hle h₁]
      exact ih h₂

/-- A computation with fuel for each element of a list: enough fuel for the whole list is enough for
its head and its tail. -/
theorem exists_foldlM_cons {τ : Type u} {ι : Type v} {f : ℕ → τ → ι → Option τ}
    (hmono : ∀ n m s i s', n ≤ m → f n s i = some s' → f m s i = some s') {s s' : τ} {i : ι}
    {is : List ι} :
    (∃ n, (i :: is).foldlM (f n) s = some s') ↔
      ∃ s₁, (∃ n, f n s i = some s₁) ∧ ∃ n, is.foldlM (f n) s₁ = some s' := by
  constructor
  · rintro ⟨n, hn⟩
    rw [List.foldlM_cons] at hn
    obtain ⟨s₁, h₁, h₂⟩ := Option.bind_eq_some_iff.1 hn
    exact ⟨s₁, ⟨n, h₁⟩, n, h₂⟩
  · rintro ⟨s₁, ⟨n, h₁⟩, m, h₂⟩
    refine ⟨max n m, ?_⟩
    rw [List.foldlM_cons, hmono n _ s i s₁ (Nat.le_max_left n m) h₁]
    exact foldlM_mono hmono (Nat.le_max_right n m) h₂

end Loop
