/-
**Descending along a relation: to an end, or back to where one was.**

`Acc r x` says that every descent from `x` along `r` comes to an end.  A descent that comes back to
a place can go on forever, and where there are finitely many places that is the only reason why it
does.  A descent that has no choice comes to finitely many places only, if it ends.

Main definitions:

* `Descent.Acyclic` — no descent from here comes back to a place.

Main results:

* `Descent.acyclic_of_acc` — a descent that comes back does not end;
* `Descent.acc_iff_acyclic` — **through finitely many places, all descents end exactly when none
  comes back**;
* `Descent.acc_iff_finite_and_acyclic` — without a choice they end exactly when there are finitely
  many places and none of them is come back to.
-/

import Mathlib.Data.Set.Finite.Lattice
import Mathlib.Logic.Relation
import Mathlib.Order.WellFounded

set_option relaxedAutoImplicit false
set_option autoImplicit false

universe u

namespace Descent

open Relation

variable {α : Type u} {r : α → α → Prop}

/-- No descent from `x` comes to a place that leads back to itself. -/
def Acyclic (r : α → α → Prop) (x : α) : Prop := ∀ y, ReflTransGen r y x → ¬ TransGen r y y

/-! ### Descents that end -/

theorem acc_of_reflTransGen {x y : α} (h : ReflTransGen r y x) (hx : Acc r x) : Acc r y := by
  induction h using ReflTransGen.head_induction_on with
  | refl => exact hx
  | head hyz _ ih => exact ih.inv hyz

/-- A place from which all descents end does not lead back to itself. -/
theorem not_transGen_of_acc {x : α} (h : Acc r x) : ¬ TransGen r x x := by
  have hacc := Acc.transGen h
  clear h
  induction hacc with
  | intro x _ ih => exact fun hx => ih x hx hx

/-- **A descent that comes back does not end.** -/
theorem acyclic_of_acc {x : α} (h : Acc r x) : Acyclic r x := fun _ hy =>
  not_transGen_of_acc (acc_of_reflTransGen hy h)

/-! ### Endless descents -/

section Endless

variable {f : ℕ → α}

theorem transGen_of_lt (hf : ∀ n, r (f (n + 1)) (f n)) {m n : ℕ} (h : m < n) :
    TransGen r (f n) (f m) := by
  induction n, h using Nat.le_induction with
  | base => exact TransGen.single (hf m)
  | succ n _ ih => exact TransGen.head (hf n) ih

theorem reflTransGen_of_descent (hf : ∀ n, r (f (n + 1)) (f n)) (m : ℕ) :
    ReflTransGen r (f m) (f 0) := by
  rcases Nat.eq_zero_or_pos m with rfl | hm
  · exact ReflTransGen.refl
  · exact (transGen_of_lt hf hm).to_reflTransGen

/-- An endless descent that does not come back is through different places. -/
theorem injective_of_acyclic (hf : ∀ n, r (f (n + 1)) (f n)) (h : Acyclic r (f 0)) :
    Function.Injective f := by
  refine Function.Injective.of_lt_imp_ne fun m n hlt heq => ?_
  have hback := transGen_of_lt hf hlt
  rw [← heq] at hback
  exact h (f m) (reflTransGen_of_descent hf m) hback

end Endless

/-! ### Finitely many places -/

/-- **Through finitely many places, all descents end exactly when none comes back.** -/
theorem acc_iff_acyclic {x : α} (hfin : {y | ReflTransGen r y x}.Finite) :
    Acc r x ↔ Acyclic r x := by
  refine ⟨acyclic_of_acc, fun hacyclic => ?_⟩
  by_contra hacc
  obtain ⟨f, rfl, hf⟩ := not_acc_iff_exists_descending_chain.1 hacc
  have hreach : Set.range f ⊆ {y | ReflTransGen r y (f 0)} := by
    rintro _ ⟨n, rfl⟩
    exact reflTransGen_of_descent hf n
  exact Set.infinite_range_of_injective (injective_of_acyclic hf hacyclic) (hfin.subset hreach)

/-- A descent that ends, and has no choice, comes to finitely many places. -/
theorem finite_of_acc (hdet : ∀ x y z, r y x → r z x → y = z) {x : α} (h : Acc r x) :
    {y | ReflTransGen r y x}.Finite := by
  induction h with
  | intro x _ ih =>
      by_cases hnext : ∃ y, r y x
      · obtain ⟨y, hy⟩ := hnext
        refine ((ih y hy).insert x).subset fun z hz => ?_
        rcases ReflTransGen.cases_tail hz with rfl | ⟨y', hzy', hy'⟩
        · exact Set.mem_insert _ _
        · obtain rfl := hdet x y' y hy' hy
          exact Set.mem_insert_of_mem _ hzy'
      · refine (Set.finite_singleton x).subset fun z hz => ?_
        rcases ReflTransGen.cases_tail hz with rfl | ⟨y, -, hy⟩
        · exact Set.mem_singleton _
        · exact absurd ⟨y, hy⟩ hnext

/-- **Without a choice, a descent ends exactly when it comes to finitely many places and does not
come back to one.** -/
theorem acc_iff_finite_and_acyclic (hdet : ∀ x y z, r y x → r z x → y = z) {x : α} :
    Acc r x ↔ {y | ReflTransGen r y x}.Finite ∧ Acyclic r x := by
  constructor
  · intro h
    exact ⟨finite_of_acc hdet h, acyclic_of_acc h⟩
  · rintro ⟨hfin, hacyclic⟩
    exact (acc_iff_acyclic hfin).2 hacyclic

end Descent
