/-
**Setting and removing an environment variable** (`assignment_4/print_env_var.c`,
`assignment_4/remove_env_var.c`).

Each program prints its environment, changes one variable and prints the environment again.  The
first one sets the variable, over a value it has only when asked to; the second one removes it.

Main definitions:

* `EnvVars.print_env_var`, `EnvVars.remove_env_var` — the two programs.

Main results:

* `EnvVars.print_env_var_sets` — **what the first program changes**, for all arguments;
* `EnvVars.remove_env_var_removes` — **what the second one changes**, also after the first.
-/

import AupPrograms.CText
import AupPrograms.Environ

set_option relaxedAutoImplicit false
set_option autoImplicit false

namespace EnvVars

open CText (ascii)
open Environ (Name getenv getenv_setenv getenv_unsetenv others_setenv unsetenv_setenv)

/-! ### The programs -/

abbrev Environment := List (List UInt8)

/-- What a program returns and prints, and the environment it leaves. -/
structure Result where
  status : ℤ
  stdout : List UInt8
  environ : Environment

def EINVAL : ℤ := 22

def ENOMEM : ℤ := 12

/-- A name that `setenv` and `unsetenv` accept: not empty, and without `=`. -/
def name? (bs : List UInt8) : Option (Name (61 : UInt8)) :=
  if h : bs ≠ [] ∧ 61 ∉ bs then some ⟨bs, h.1, h.2⟩ else none

/-- `setenv` needs memory unless the variable keeps the value it has. -/
def setenv (nomem : Bool) (environ : Environment) (name value : List UInt8) (rewrite : Bool) :
    Except ℤ Environment :=
  match name? name with
  | none => .error EINVAL
  | some n =>
      if nomem = true ∧ (rewrite = true ∨ getenv environ n = none) then .error ENOMEM
      else .ok (Environ.setenv n value rewrite environ)

def unsetenv (environ : Environment) (name : List UInt8) : Except ℤ Environment :=
  match name? name with
  | none => .error EINVAL
  | some n => .ok (Environ.unsetenv n environ)

/-- The loop that prints the environment. -/
def listing (environ : Environment) : List UInt8 := environ.flatMap (· ++ ascii "\n")

/-- Prints the environment, changes it and prints it again, unless the change fails.  The status is
then the `errno` of the change: `perror`, which comes before the `return`, is taken to leave it
alone. -/
def changed (environ : Environment) : Except ℤ Environment → Result
  | .error errno => ⟨errno, listing environ, environ⟩
  | .ok environ' => ⟨0, listing environ ++ listing environ', environ'⟩

def printUsage : List UInt8 :=
  ascii "Usage ./print_env_var <env_var_name> <env_var_value> <rewrite (Y/N)>\n"

def removeUsage : List UInt8 := ascii "Usage ./remove_env_var <env_var_name>\n"

/-- The value of `rewrite` for the third argument. -/
def rewriteOf (arg : List UInt8) : Option Bool :=
  if arg = ascii "Y" then some true else if arg = ascii "N" then some false else none

/-- **`main` of `print_env_var.c`**; `nomem` if there is no memory for the new string. -/
def print_env_var (nomem : Bool) (argv : List (List UInt8)) (environ : Environment) : Result :=
  match argv with
  | [_, name, value, arg] =>
      match rewriteOf arg with
      | none => ⟨0, printUsage, environ⟩
      | some rewrite => changed environ (setenv nomem environ name value rewrite)
  | _ => ⟨0, printUsage, environ⟩

/-- **`main` of `remove_env_var.c`.** -/
def remove_env_var (argv : List (List UInt8)) (environ : Environment) : Result :=
  match argv with
  | [_, name] => changed environ (unsetenv environ name)
  | _ => ⟨0, removeUsage, environ⟩

/-! ### What they change -/

theorem name?_text (n : Name (61 : UInt8)) : name? n.text = some n :=
  dif_pos ⟨n.ne_nil, n.notMem⟩

theorem text_of_name? {bs : List UInt8} {n : Name (61 : UInt8)} (h : name? bs = some n) :
    n.text = bs := by
  unfold name? at h
  split_ifs at h
  rw [← Option.some_inj.1 h]

/-- The argument that asks for `rewrite` or not. -/
def flag (rewrite : Bool) : List UInt8 := if rewrite then ascii "Y" else ascii "N"

theorem rewriteOf_flag (rewrite : Bool) : rewriteOf (flag rewrite) = some rewrite := by
  cases rewrite <;> rfl

theorem flag_of_rewriteOf {arg : List UInt8} {rewrite : Bool} (h : rewriteOf arg = some rewrite) :
    arg = flag rewrite := by
  unfold rewriteOf at h
  split_ifs at h with hyes hno
  · rw [← Option.some_inj.1 h]
    exact hyes
  · rw [← Option.some_inj.1 h]
    exact hno

/-- The program is asked for what it can do. -/
def Accepted (nomem : Bool) (argv : List (List UInt8)) (environ : Environment)
    (n : Name (61 : UInt8)) (value : List UInt8) (rewrite : Bool) : Prop :=
  (∃ prog, argv = [prog, n.text, value, flag rewrite]) ∧
    ¬ (nomem = true ∧ (rewrite = true ∨ getenv environ n = none))

theorem print_env_var_of_accepted {nomem : Bool} {argv : List (List UInt8)} {environ : Environment}
    {n : Name (61 : UInt8)} {value : List UInt8} {rewrite : Bool}
    (h : Accepted nomem argv environ n value rewrite) :
    print_env_var nomem argv environ
      = changed environ (.ok (Environ.setenv n value rewrite environ)) := by
  obtain ⟨⟨prog, rfl⟩, hmem⟩ := h
  simp only [print_env_var, rewriteOf_flag, setenv, name?_text, if_neg hmem]

/-- What the program returns and prints when it cannot do what it is asked for. -/
def refusals (environ : Environment) : List (ℤ × List UInt8) :=
  [(0, printUsage), (EINVAL, listing environ), (ENOMEM, listing environ)]

theorem print_env_var_cases (nomem : Bool) (argv : List (List UInt8)) (environ : Environment) :
    (∃ n value rewrite, Accepted nomem argv environ n value rewrite) ∨
      ∃ status stdout, (status, stdout) ∈ refusals environ ∧
        print_env_var nomem argv environ = ⟨status, stdout, environ⟩ := by
  unfold print_env_var
  split
  case h_2 => exact Or.inr ⟨0, printUsage, by simp [refusals], rfl⟩
  case h_1 prog name value arg =>
    cases hflag : rewriteOf arg with
    | none => exact Or.inr ⟨0, printUsage, by simp [refusals], rfl⟩
    | some rewrite =>
        cases hname : name? name with
        | none =>
            refine Or.inr ⟨EINVAL, listing environ, by simp [refusals], ?_⟩
            simp only [setenv, hname, changed]
        | some n =>
            by_cases hmem : nomem = true ∧ (rewrite = true ∨ getenv environ n = none)
            · refine Or.inr ⟨ENOMEM, listing environ, by simp [refusals], ?_⟩
              simp only [setenv, hname, if_pos hmem, changed]
            · refine Or.inl ⟨n, value, rewrite, ⟨prog, ?_⟩, hmem⟩
              rw [text_of_name? hname, flag_of_rewriteOf hflag]

/-- **What `print_env_var` changes**: when it is asked for what it can do, it prints the environment
before and after the change, in which the variable has the value it was given, or the one it had if
that was to stay, and no other entry has changed or moved.  Otherwise the environment stays, and is
printed once, if the arguments are right, and not at all, if they are not. -/
theorem print_env_var_sets (nomem : Bool) (argv : List (List UInt8)) (environ : Environment) :
    (∀ n value rewrite, Accepted nomem argv environ n value rewrite →
      (print_env_var nomem argv environ).status = 0 ∧
        (print_env_var nomem argv environ).stdout
          = listing environ ++ listing (print_env_var nomem argv environ).environ ∧
        (print_env_var nomem argv environ).environ.filter n.isOther = environ.filter n.isOther ∧
        getenv (print_env_var nomem argv environ).environ =
          if rewrite = true ∨ getenv environ n = none then
            Function.update (getenv environ) n (some value)
          else getenv environ) ∧
    ((∀ n value rewrite, ¬ Accepted nomem argv environ n value rewrite) →
      ∃ status stdout, (status, stdout) ∈ refusals environ ∧
        print_env_var nomem argv environ = ⟨status, stdout, environ⟩) := by
  constructor
  · intro n value rewrite h
    rw [print_env_var_of_accepted h]
    exact ⟨rfl, rfl, others_setenv n value rewrite environ, getenv_setenv n value rewrite environ⟩
  · intro hnot
    rcases print_env_var_cases nomem argv environ with ⟨n, value, rewrite, h⟩ | h
    · exact absurd h (hnot n value rewrite)
    · exact h

/-- **What `remove_env_var` changes**: it prints the environment before and after the change, in
which all entries of the variable are gone and the others are where they were.  After
`print_env_var` has set the variable, it leaves what it would have left without that. -/
theorem remove_env_var_removes (prog : List UInt8) (n : Name (61 : UInt8)) (environ : Environment) :
    remove_env_var [prog, n.text] environ
      = ⟨0, listing environ ++ listing (environ.filter n.isOther), environ.filter n.isOther⟩ ∧
    getenv (remove_env_var [prog, n.text] environ).environ
      = Function.update (getenv environ) n none ∧
    ∀ nomem prog' value arg,
      (remove_env_var [prog, n.text]
        (print_env_var nomem [prog', n.text, value, arg] environ).environ).environ
      = (remove_env_var [prog, n.text] environ).environ := by
  have hremove : ∀ environ, remove_env_var [prog, n.text] environ
      = ⟨0, listing environ ++ listing (Environ.unsetenv n environ),
          Environ.unsetenv n environ⟩ := by
    intro environ
    simp only [remove_env_var, unsetenv, name?_text, changed]
  refine ⟨hremove environ, ?_, ?_⟩
  · rw [hremove]
    exact getenv_unsetenv n environ
  · intro nomem prog' value arg
    rw [hremove, hremove]
    rcases print_env_var_cases nomem [prog', n.text, value, arg] environ with
      ⟨m, value', rewrite, h⟩ | ⟨status, stdout, -, heq⟩
    · obtain ⟨⟨prog, hargv⟩, -⟩ := id h
      obtain rfl : n = m := by
        simp only [List.cons.injEq] at hargv
        exact Name.ext hargv.2.1
      rw [print_env_var_of_accepted h]
      exact unsetenv_setenv n value' rewrite environ
    · rw [heq]

end EnvVars
