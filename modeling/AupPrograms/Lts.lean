/-
**Labelled transition systems: runs, invariants, traces and simulations.**

Every concurrent program of this development is a transition relation on an explicit state, whose
steps carry a label.  This module is the part that does not depend on which program it is: what a
run is, how an invariant of one step becomes an invariant of every run, how the visible events of
a run are read off its labels, and how a step-by-step correspondence between two systems becomes
an inclusion of their traces.

Main definitions:

* `Lts` — initial states and a labelled step relation;
* `Lts.Run`, `Lts.Exec` — finite runs, and the runs that start in an initial state;
* `Lts.restrict` — the same system with some steps forbidden;
* `Lts.ofNext`, `Lts.perform` — the system whose steps a function computes, and its run on a list of
  choices;
* `Lts.traces` — the event sequences of the runs that end in a given set of states;
* `Lts.Simulates`, `Lts.Realises` — one concrete step is matched by at most one abstract step, and
  one abstract step is carried out by a finite concrete run.

Main results:

* `Lts.Exec.invariant` — **the invariant rule**: what holds initially and is preserved by a step
  holds along every run, where the predicate may mention the labels performed so far;
* `Lts.Exec.forall_splits` — what holds of every step holds at each place of a run;
* `Lts.Exec.restrict` — forbidding steps that are never taken changes nothing;
* `Lts.Exec.forall_iff_restrict` — what the labels of a run say about the steps it takes;
* `Lts.run_of_perform` — a computed run is a run;
* `Lts.sum_update` — what one component of a state contributes to a sum over all;
* `Lts.Simulates.traces_subset`, `Lts.Realises.subset_traces` — the two inclusions of traces.
-/

import Mathlib.Algebra.BigOperators.Group.Finset.Piecewise
import Mathlib.Data.List.Basic
import Mathlib.Data.Set.Basic

set_option relaxedAutoImplicit false
set_option autoImplicit false

universe u v w x

/-- A labelled transition system with states `S` and labels `A`. -/
structure Lts (S : Type u) (A : Type v) where
  /-- The states a run may start in. -/
  init : S → Prop
  /-- `step s a s'`: the system can move from `s` to `s'`, performing `a`. -/
  step : S → A → S → Prop

namespace Lts

variable {S : Type u} {A : Type v} {S' : Type w} {E : Type x}

/-! ### Runs -/

/-- `T.Run s as s'`: performing the labels `as` in order leads from `s` to `s'`. -/
inductive Run (T : Lts S A) : S → List A → S → Prop
  | nil (s : S) : Run T s [] s
  | snoc {s s' s'' : S} {as : List A} {a : A} :
      Run T s as s' → T.step s' a s'' → Run T s (as ++ [a]) s''

/-- `T.Exec as s`: some run from an initial state performs `as` and ends in `s`. -/
def Exec (T : Lts S A) (as : List A) (s : S) : Prop := ∃ s₀, T.init s₀ ∧ T.Run s₀ as s

variable {T : Lts S A}

theorem Run.single {s s' : S} {a : A} (h : T.step s a s') : T.Run s [a] s' :=
  Run.snoc (Run.nil s) h

theorem Run.trans {s s' s'' : S} {as bs : List A} (h : T.Run s as s') (h' : T.Run s' bs s'') :
    T.Run s (as ++ bs) s'' := by
  induction h' with
  | nil => simpa using h
  | snoc _ hs ih => rw [← List.append_assoc]; exact Run.snoc ih hs

theorem Run.cons {s s' s'' : S} {a : A} {as : List A} (h : T.step s a s')
    (h' : T.Run s' as s'') : T.Run s (a :: as) s'' := (Run.single h).trans h'

theorem Exec.init {s : S} (h : T.init s) : T.Exec [] s := ⟨s, h, Run.nil s⟩

theorem Exec.trans {as bs : List A} {s s' : S} (h : T.Exec as s) (h' : T.Run s bs s') :
    T.Exec (as ++ bs) s' := by
  obtain ⟨s₀, h₀, hr⟩ := h
  exact ⟨s₀, h₀, hr.trans h'⟩

/-- **The invariant rule.**  The predicate may mention the labels performed so far, and the step may
use that its source is reachable. -/
theorem Exec.invariant {I : List A → S → Prop} (h₀ : ∀ s, T.init s → I [] s)
    (hstep : ∀ as s a s', T.Exec as s → I as s → T.step s a s' → I (as ++ [a]) s') {as : List A}
    {s : S} (h : T.Exec as s) : I as s := by
  obtain ⟨s₀, hs₀, hr⟩ := h
  induction hr with
  | nil => exact h₀ _ hs₀
  | snoc hr hs ih => exact hstep _ _ _ _ ⟨s₀, hs₀, hr⟩ ih hs

/-- The invariant rule for a predicate of the state alone. -/
theorem Exec.state_invariant {I : S → Prop} (h₀ : ∀ s, T.init s → I s)
    (hstep : ∀ s a s', I s → T.step s a s' → I s') {as : List A} {s : S} (h : T.Exec as s) :
    I s :=
  Exec.invariant (I := fun _ s => I s) h₀ (fun _ _ _ _ _ => hstep _ _ _) h

/-- What holds of every step from a reachable state holds of every label of a run. -/
theorem Exec.forall_labels {Q : A → Prop}
    (hQ : ∀ as s a s', T.Exec as s → T.step s a s' → Q a) {as : List A} {s : S}
    (h : T.Exec as s) : ∀ a ∈ as, Q a := by
  refine Exec.invariant (I := fun as _ => ∀ a ∈ as, Q a) ?_ ?_ h
  · intro s _ a ha
    cases ha
  · intro as s a s' hr ih hs b hb
    rcases List.mem_append.1 hb with hb | hb
    · exact ih b hb
    · obtain rfl := List.mem_singleton.1 hb
      exact hQ as s b s' hr hs

/-- What holds of every step from a reachable state, with the labels performed before it, holds at
each place of a run. -/
theorem Exec.forall_splits {Q : List A → A → Prop}
    (hQ : ∀ as s a s', T.Exec as s → T.step s a s' → Q as a) {as : List A} {s : S}
    (h : T.Exec as s) : ∀ xs a ys, as = xs ++ a :: ys → Q xs a := by
  refine Exec.invariant (I := fun as _ => ∀ xs a ys, as = xs ++ a :: ys → Q xs a) ?_ ?_ h
  · intro s _ xs a ys heq
    simp at heq
  · intro as s a s' hr ih hs xs b ys heq
    rcases List.eq_nil_or_concat ys with rfl | ⟨ys, c, rfl⟩
    · obtain ⟨rfl, hab⟩ := List.append_inj' heq rfl
      obtain rfl := List.singleton_inj.1 hab
      exact hQ as s a s' hr hs
    · rw [List.concat_eq_append, ← List.cons_append, ← List.append_assoc] at heq
      exact ih xs b ys (List.append_inj' heq rfl).1

/-! ### Forbidding steps -/

/-- The system `T` in which only the steps that satisfy `P` may be taken. -/
def restrict (T : Lts S A) (P : S → A → Prop) : Lts S A where
  init := T.init
  step s a s' := T.step s a s' ∧ P s a

theorem Run.of_restrict {P : S → A → Prop} {s s' : S} {as : List A}
    (h : (T.restrict P).Run s as s') : T.Run s as s' := by
  induction h with
  | nil => exact Run.nil _
  | snoc _ hs ih => exact Run.snoc ih hs.1

/-- A run whose labels only occur where they are allowed. -/
theorem Run.restrict {P : S → A → Prop} {s s' : S} {as : List A} (h : T.Run s as s')
    (hP : ∀ a ∈ as, ∀ s, P s a) : (T.restrict P).Run s as s' := by
  induction h with
  | nil => exact Run.nil _
  | snoc _ hs ih =>
      exact Run.snoc (ih fun a ha => hP a (by simp [ha])) ⟨hs, hP _ (by simp) _⟩

theorem Exec.of_restrict {P : S → A → Prop} {as : List A} {s : S}
    (h : (T.restrict P).Exec as s) : T.Exec as s := by
  obtain ⟨s₀, h₀, hr⟩ := h
  exact ⟨s₀, h₀, hr.of_restrict⟩

/-- Forbidding steps that no run gets to take changes nothing. -/
theorem Exec.restrict {P : S → A → Prop}
    (hP : ∀ as s a s', T.Exec as s → T.step s a s' → P s a) {as : List A} {s : S}
    (h : T.Exec as s) : (T.restrict P).Exec as s := by
  refine Exec.invariant (I := fun as s => (T.restrict P).Exec as s) ?_ ?_ h
  · intro s hs
    exact Exec.init (T := T.restrict P) hs
  · intro as s a s' hr ih hs
    exact ih.trans (Run.single ⟨hs, hP as s a s' hr hs⟩)

/-- **Labels and steps**: when each step from a reachable state satisfies `P` exactly if its label
has the property `Q`, a run has only labels with `Q` exactly if it takes only steps that satisfy
`P`. -/
theorem Exec.forall_iff_restrict {P : S → A → Prop} {Q : A → Prop}
    (hPQ : ∀ as s a s', T.Exec as s → T.step s a s' → (Q a ↔ P s a)) {as : List A} {s : S}
    (h : T.Exec as s) : (∀ a ∈ as, Q a) ↔ (T.restrict P).Exec as s := by
  constructor
  · refine Exec.invariant (I := fun as s => (∀ a ∈ as, Q a) → (T.restrict P).Exec as s) ?_ ?_ h
    · intro s hs _
      exact Exec.init (T := T.restrict P) hs
    · intro as s a s' hr ih ha hall
      have hrun := ih fun b hb => hall b (List.mem_append_left _ hb)
      have hQ := hall a (by simp)
      exact hrun.trans (Run.single ⟨ha, (hPQ as s a s' hr ha).1 hQ⟩)
  · intro hr
    refine Exec.forall_labels (fun as s a s' hr hs => ?_) hr
    exact (hPQ as s a s' hr.of_restrict hs.1).2 hs.2

/-! ### Executable systems -/

section Executable

variable {C : Type v}

/-- The system in which the choice `c` is possible where `next` computes a state for it, together
with what is observed of the step. -/
def ofNext (init : S → Prop) (next : S → C → Option (S × E)) : Lts S (C × E) where
  init := init
  step s a s' := next s a.1 = some (s', a.2)

/-- The choices `cs`, made one after the other. -/
def perform (next : S → C → Option (S × E)) : S → List C → Option (S × List E)
  | s, [] => some (s, [])
  | s, c :: cs =>
      match next s c with
      | none => none
      | some (s', e) => (perform next s' cs).map fun r => (r.1, e :: r.2)

/-- A computed run is a run. -/
theorem run_of_perform {init : S → Prop} {next : S → C → Option (S × E)} {s s' : S} {cs : List C}
    {es : List E} (h : perform next s cs = some (s', es)) :
    (ofNext init next).Run s (cs.zip es) s' ∧ es.length = cs.length := by
  induction cs generalizing s es with
  | nil =>
      obtain ⟨rfl, rfl⟩ : s = s' ∧ [] = es := by simpa [perform] using h
      exact ⟨Run.nil s, rfl⟩
  | cons c cs ih =>
      cases hn : next s c with
      | none => simp [perform, hn] at h
      | some r =>
          obtain ⟨⟨s₂, es₂⟩, hp, hr⟩ :
              ∃ q, perform next r.1 cs = some q ∧ (q.1, r.2 :: q.2) = (s', es) := by
            simpa [perform, hn] using h
          obtain ⟨rfl, rfl⟩ := Prod.mk.inj hr
          obtain ⟨hrun, hlen⟩ := ih hp
          exact ⟨hrun.cons (a := (c, r.2)) hn, by simp [hlen]⟩

/-- A computed run from an initial state, by choices that are always allowed. -/
theorem Exec.of_perform {init : S → Prop} {next : S → C → Option (S × E)} {P : S → C × E → Prop}
    {s₀ s : S} {cs : List C} {es : List E} (h₀ : init s₀)
    (h : perform next s₀ cs = some (s, es)) (hP : ∀ c ∈ cs, ∀ s e, P s (c, e)) :
    ((ofNext init next).restrict P).Exec (cs.zip es) s := by
  obtain ⟨hrun, -⟩ : (ofNext init next).Run s₀ (cs.zip es) s ∧ es.length = cs.length :=
    run_of_perform h
  refine ⟨s₀, h₀, hrun.restrict ?_⟩
  rintro ⟨c, e⟩ hmem s
  exact hP c (List.of_mem_zip hmem).1 s e

/-- What is observed in a computed run is observed in a label of the run. -/
theorem exists_label_of_perform {next : S → C → Option (S × E)} {s₀ s : S} {cs : List C}
    {es : List E} (h : perform next s₀ cs = some (s, es)) {e : E} (he : e ∈ es) :
    ∃ a ∈ cs.zip es, a.2 = e := by
  obtain ⟨-, hlen⟩ : (ofNext (fun _ => True) next).Run s₀ (cs.zip es) s ∧ es.length = cs.length :=
    run_of_perform h
  rw [← List.map_snd_zip hlen.le] at he
  exact List.mem_map.1 he

end Executable

/-! ### States with components -/

/-- A sum over the components of a state changes by what the moving one contributes. -/
theorem sum_update {ι α M : Type*} [DecidableEq ι] [Fintype ι] [AddCommMonoid M] (f : ι → α → M)
    (g : ι → α) (i : ι) (x : α) :
    ∑ j, f j (Function.update g i x j) + f i (g i) = ∑ j, f j (g j) + f i x := by
  have hupd : (fun j => f j (Function.update g i x j))
      = Function.update (fun j => f j (g j)) i (f i x) := by
    funext j
    rcases eq_or_ne j i with rfl | hj
    · simp
    · simp [Function.update_of_ne hj]
  rw [hupd, Finset.sum_update_of_mem (Finset.mem_univ i), Finset.sdiff_singleton_eq_erase,
    ← Finset.add_sum_erase _ _ (Finset.mem_univ i), add_right_comm, add_comm (f i x)]
  exact add_right_comm _ _ _

/-! ### Traces and simulations -/

/-- The event sequences of the runs of `T` that end in a state satisfying `final`. -/
def traces (T : Lts S A) (obs : A → Option E) (final : S → Prop) : Set (List E) :=
  {es | ∃ as s, T.Exec as s ∧ final s ∧ as.filterMap obs = es}

/-- **Forward simulation**, on the reachable states of `T`: a silent step keeps the relation, a
visible one is matched by the abstract step with that event. -/
structure Simulates (T : Lts S A) (obs : A → Option E) (T' : Lts S' E) (R : S → S' → Prop) :
    Prop where
  init : ∀ s, T.init s → ∃ t, T'.init t ∧ R s t
  silent : ∀ as s a s₁ t, T.Exec as s → R s t → T.step s a s₁ → obs a = none → R s₁ t
  visible : ∀ as s a e s₁ t, T.Exec as s → R s t → T.step s a s₁ → obs a = some e →
    ∃ t₁, T'.step t e t₁ ∧ R s₁ t₁

theorem Simulates.exec {obs : A → Option E} {T' : Lts S' E} {R : S → S' → Prop}
    (h : T.Simulates obs T' R) {as : List A} {s : S} (hr : T.Exec as s) :
    ∃ t, T'.Exec (as.filterMap obs) t ∧ R s t := by
  refine Exec.invariant (I := fun as s => ∃ t, T'.Exec (as.filterMap obs) t ∧ R s t) ?_ ?_ hr
  · intro s hs
    obtain ⟨t, ht, hR⟩ := h.init s hs
    exact ⟨t, Exec.init ht, hR⟩
  · rintro as s a s' hr ⟨t, ht, hR⟩ hs
    rw [List.filterMap_append]
    cases hobs : obs a with
    | none => exact ⟨t, by simpa [hobs] using ht, h.silent as s a s' t hr hR hs hobs⟩
    | some e =>
        obtain ⟨t₁, ht₁, hR₁⟩ := h.visible as s a e s' t hr hR hs hobs
        refine ⟨t₁, ?_, hR₁⟩
        simpa [hobs] using ht.trans (Run.single ht₁)

/-- Trace inclusion from a forward simulation. -/
theorem Simulates.traces_subset {obs : A → Option E} {T' : Lts S' E} {R : S → S' → Prop}
    (h : T.Simulates obs T' R) {final : S → Prop} {final' : S' → Prop}
    (hfin : ∀ as s t, T.Exec as s → R s t → final s → final' t) :
    T.traces obs final ⊆ T'.traces some final' := by
  rintro es ⟨as, s, hr, hf, rfl⟩
  obtain ⟨t, ht, hR⟩ := h.exec hr
  exact ⟨as.filterMap obs, t, ht, hfin as s t hr hR hf, by simp⟩

/-- **Realisation**: every abstract step can be carried out by a finite run of `T` that performs
exactly that event. -/
structure Realises (T : Lts S A) (obs : A → Option E) (T' : Lts S' E) (R : S' → S → Prop) :
    Prop where
  init : ∀ t, T'.init t → ∃ s, T.init s ∧ R t s
  step : ∀ t e t₁ s, R t s → T'.step t e t₁ →
    ∃ as s₁, T.Run s as s₁ ∧ as.filterMap obs = [e] ∧ R t₁ s₁

/-- Trace inclusion from a realisation. -/
theorem Realises.subset_traces {obs : A → Option E} {T' : Lts S' E} {R : S' → S → Prop}
    (h : T.Realises obs T' R) {final : S → Prop} {final' : S' → Prop}
    (hfin : ∀ t s, R t s → final' t →
      ∃ as s₁, T.Run s as s₁ ∧ as.filterMap obs = [] ∧ final s₁) :
    T'.traces some final' ⊆ T.traces obs final := by
  rintro es ⟨es', t, hr, hf, rfl⟩
  have key : ∃ as s, T.Exec as s ∧ as.filterMap obs = es' ∧ R t s := by
    refine Exec.invariant
      (I := fun es t => ∃ as s, T.Exec as s ∧ as.filterMap obs = es ∧ R t s) ?_ ?_ hr
    · intro t ht
      obtain ⟨s, hs, hR⟩ := h.init t ht
      exact ⟨[], s, Exec.init hs, rfl, hR⟩
    · rintro es t e t₁ - ⟨as, s, hs, has, hR⟩ ht
      obtain ⟨bs, s₁, hrun, hbs, hR₁⟩ := h.step t e t₁ s hR ht
      exact ⟨as ++ bs, s₁, hs.trans hrun, by rw [List.filterMap_append, has, hbs], hR₁⟩
  obtain ⟨as, s, hs, has, hR⟩ := key
  obtain ⟨bs, s₁, hrun, hbs, hfs⟩ := hfin t s hR hf
  exact ⟨as ++ bs, s₁, hs.trans hrun, hfs, by simp [List.filterMap_append, has, hbs]⟩

end Lts
