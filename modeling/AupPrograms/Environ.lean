/-
**Variables as a list of strings.**

An environment is a list of strings `name=value`.  Nothing keeps such a list in order: a name may
have several entries, of which the first one counts, and an entry may have no name at all.  This
module says what setting and removing a variable mean for those who read the variables, and for the
list itself.  The alphabet and the separator are arbitrary.

Main definitions:

* `Environ.Name` — a name: not empty, and without the separator;
* `Environ.getenv`, `Environ.setenv`, `Environ.unsetenv` — the operations on the list.

Main results:

* `Environ.getenv_setenv`, `Environ.getenv_unsetenv` — reading after setting and after removing;
* `Environ.others_setenv` — the entries of other variables stay where they are.
-/

import Mathlib.Data.List.Basic
import Mathlib.Logic.Function.Basic

set_option relaxedAutoImplicit false
set_option autoImplicit false

universe u

namespace Environ

variable {β : Type u} [DecidableEq β] {sep : β}

/-! ### Names and entries -/

/-- The name of a variable. -/
@[ext] structure Name (sep : β) where
  text : List β
  ne_nil : text ≠ []
  notMem : sep ∉ text
  deriving DecidableEq

/-- The string that gives the variable a value. -/
def Name.entry (n : Name sep) (v : List β) : List β := n.text ++ sep :: v

/-- The value that a string gives to the variable, if it gives one. -/
def Name.value (n : Name sep) (e : List β) : Option (List β) :=
  if n.text ++ [sep] <+: e then some (e.drop (n.text.length + 1)) else none

/-- The string is not an entry of the variable. -/
def Name.isOther (n : Name sep) (e : List β) : Bool := (n.value e).isNone

theorem Name.value_eq_some_iff {n : Name sep} {e v : List β} :
    n.value e = some v ↔ e = n.entry v := by
  have hlength : (n.text ++ [sep]).length = n.text.length + 1 := by simp
  have hentry : n.entry v = n.text ++ [sep] ++ v := by simp [entry]
  unfold value
  constructor
  · intro h
    split_ifs at h with hbegin
    obtain ⟨w, rfl⟩ := hbegin
    rw [← hlength, List.drop_left] at h
    rw [hentry, Option.some_inj.1 h]
  · rintro rfl
    rw [hentry, if_pos (List.prefix_append _ _), ← hlength, List.drop_left]

theorem Name.takeWhile_entry (n : Name sep) (v : List β) :
    (n.entry v).takeWhile (· ≠ sep) = n.text := by
  have hname : ∀ b ∈ n.text, decide (b ≠ sep) = true := fun b hb =>
    decide_eq_true fun heq => n.notMem (heq ▸ hb)
  rw [entry, List.takeWhile_append_of_pos hname, List.takeWhile_cons_of_neg (by simp),
    List.append_nil]

/-- **An entry has one name**, since the separator ends it. -/
theorem Name.value_entry (m n : Name sep) (v : List β) :
    m.value (n.entry v) = if m = n then some v else none := by
  by_cases hmn : m = n
  · rw [if_pos hmn, hmn]
    exact value_eq_some_iff.2 rfl
  · rw [if_neg hmn, Option.eq_none_iff_forall_ne_some]
    intro w hw
    have htext := congrArg (List.takeWhile (· ≠ sep)) (value_eq_some_iff.1 hw)
    rw [n.takeWhile_entry, m.takeWhile_entry] at htext
    exact hmn (Name.ext htext.symm)

/-! ### The operations -/

/-- The value of a variable: that of its first entry. -/
def getenv (env : List (List β)) (n : Name sep) : Option (List β) := env.findSome? n.value

/-- Gives a variable a value: its first entry is replaced, if `rewrite`, or one is added. -/
def setenv (n : Name sep) (v : List β) (rewrite : Bool) : List (List β) → List (List β)
  | [] => [n.entry v]
  | e :: es =>
      if n.isOther e then e :: setenv n v rewrite es
      else if rewrite then n.entry v :: es
      else e :: es

/-- Removes all entries of a variable. -/
def unsetenv (n : Name sep) (env : List (List β)) : List (List β) := env.filter n.isOther

theorem getenv_cons (e : List β) (es : List (List β)) (n : Name sep) :
    getenv (e :: es) n = (n.value e).or (getenv es n) := by
  rw [getenv, List.findSome?_cons]
  cases n.value e <;> rfl

theorem getenv_cons_entry (m n : Name sep) (v : List β) (es : List (List β)) :
    getenv (n.entry v :: es) m = if m = n then some v else getenv es m := by
  rw [getenv_cons, Name.value_entry]
  split_ifs <;> rfl

theorem getenv_cons_other {n : Name sep} {e : List β} (h : n.isOther e = true)
    (es : List (List β)) : getenv (e :: es) n = getenv es n := by
  rw [getenv_cons, Option.isNone_iff_eq_none.1 h, Option.none_or]

theorem Name.exists_entry {n : Name sep} {e : List β} (h : n.isOther e = false) :
    ∃ v, e = n.entry v := by
  obtain ⟨v, hv⟩ := Option.isSome_iff_exists.1 (Option.isNone_eq_false_iff.1 h)
  exact ⟨v, value_eq_some_iff.1 hv⟩

theorem Name.isOther_entry (m n : Name sep) (v : List β) :
    m.isOther (n.entry v) = true ↔ m ≠ n := by
  rw [isOther, value_entry]
  split_ifs with hmn <;> simp [hmn]

/-! ### Reading after an operation -/

/-- **Reading after setting**: the variable has the new value, unless it had one that was to stay;
no other variable has changed. -/
theorem getenv_setenv (n : Name sep) (v : List β) (rewrite : Bool) (env : List (List β)) :
    getenv (setenv n v rewrite env) =
      if rewrite = true ∨ getenv env n = none then Function.update (getenv env) n (some v)
      else getenv env := by
  funext m
  induction env with
  | nil =>
      have hnone : getenv [] n = none := rfl
      rw [setenv, getenv_cons_entry, hnone, if_pos (Or.inr rfl), Function.update_apply]
  | cons e es ih =>
      cases hother : n.isOther e with
      | true =>
          rw [setenv, if_pos hother, getenv_cons, ih, getenv_cons_other hother]
          split_ifs with hset
          · rw [Function.update_apply, Function.update_apply, getenv_cons]
            split_ifs with hmn
            · rw [hmn, Option.isNone_iff_eq_none.1 hother, Option.none_or]
            · rfl
          · rw [getenv_cons]
      | false =>
          -- this is the first entry of the variable
          obtain ⟨w, rfl⟩ := Name.exists_entry hother
          have hold : getenv (n.entry w :: es) n = some w := by
            rw [getenv_cons_entry, if_pos rfl]
          rw [setenv, if_neg (by rw [hother]; exact Bool.false_ne_true), hold]
          cases rewrite with
          | true =>
              rw [if_pos rfl, if_pos (Or.inl rfl), Function.update_apply, getenv_cons_entry,
                getenv_cons_entry]
              split_ifs <;> rfl
          | false => simp

/-- **Reading after removing**: the variable has no value, all others have theirs. -/
theorem getenv_unsetenv (n : Name sep) (env : List (List β)) :
    getenv (unsetenv n env) = Function.update (getenv env) n none := by
  funext m
  induction env with
  | nil =>
      rw [Function.update_apply]
      split_ifs <;> rfl
  | cons e es ih =>
      cases hother : n.isOther e with
      | true =>
          rw [unsetenv, List.filter_cons_of_pos hother, getenv_cons,
            show getenv (es.filter n.isOther) m = _ from ih, Function.update_apply,
            Function.update_apply, getenv_cons]
          split_ifs with hmn
          · rw [hmn, Option.isNone_iff_eq_none.1 hother, Option.none_or]
          · rfl
      | false =>
          obtain ⟨w, rfl⟩ := Name.exists_entry hother
          rw [unsetenv, List.filter_cons_of_neg (by rw [hother]; exact Bool.false_ne_true),
            show getenv (es.filter n.isOther) m = _ from ih, Function.update_apply,
            Function.update_apply, getenv_cons_entry]
          split_ifs <;> rfl

/-! ### The list -/

/-- **The entries of other variables stay where they are**, also those without a name. -/
theorem others_setenv (n : Name sep) (v : List β) (rewrite : Bool) (env : List (List β)) :
    (setenv n v rewrite env).filter n.isOther = env.filter n.isOther := by
  have hentry : n.isOther (n.entry v) = false :=
    Bool.eq_false_iff.2 fun h => (n.isOther_entry n v).1 h rfl
  induction env with
  | nil => rw [setenv, List.filter_cons_of_neg (by simp [hentry])]
  | cons e es ih =>
      rw [setenv]
      split_ifs with hother hrewrite
      · rw [List.filter_cons_of_pos hother, List.filter_cons_of_pos hother, ih]
      · rw [List.filter_cons_of_neg (by simp [hentry]), List.filter_cons_of_neg hother]
      · rfl

/-- Removing undoes setting, up to the entries that the variable has had. -/
theorem unsetenv_setenv (n : Name sep) (v : List β) (rewrite : Bool) (env : List (List β)) :
    unsetenv n (setenv n v rewrite env) = unsetenv n env :=
  others_setenv n v rewrite env

end Environ
