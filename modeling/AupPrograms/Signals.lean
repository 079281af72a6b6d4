/-
**Signals of a process and its child.**

A process has a set of signals that it blocks, a set of pending ones, and a set of those it has a
handler for.  A signal that is sent becomes pending; it is delivered before the process makes a step
of its own, unless it is blocked.  Then its handler runs, or it terminates or stops the process, or
nothing happens.  A child inherits the blocked signals and the handlers, and nothing is pending in
it.  Its parent gets SIGCHLD when it exits or is stopped.

The signals are SIGHUP, SIGUSR1, SIGUSR2, SIGCHLD, SIGCONT and the four that stop a process:
SIGSTOP, SIGTSTP, SIGTTIN and SIGTTOU.  SIGSTOP can be neither blocked nor caught.  The others stop
no process of an orphaned process group, which nobody could continue.

The program is a job of its own: its process group has no other members than the program and its
child.  If a shell has started it, the group becomes orphaned when the first process exits; a child
that is stopped then gets SIGHUP and SIGCONT.  Without a shell the group is orphaned from the start,
and nothing is sent.

The programs are sequences of calls.  Signals come from outside at any time, also those that the
terminal sends.

Main definitions:

* `Signals.Sig`, `Signals.Sig.stops` — the signals, and those that stop a process;
* `Signals.Instr` — what a program does;
* `Signals.Process`, `Signals.State` — a process, and the program with its child;
* `Signals.next`, `Signals.system` — the steps;
* `Signals.Changes` — what a step can do to one process.

Main results:

* `Signals.changes_of_next` — **what a step does to each of the two processes**;
* `Signals.todo_suffix_of_changes` — a program only gets shorter;
* `Signals.born_of_next` — where a child comes from;
* `Signals.proc_invariant` — **what holds of one process in every run.**
-/

import AupPrograms.Completion
import Mathlib.Data.Finset.SDiff

set_option relaxedAutoImplicit false
set_option autoImplicit false

universe u

namespace Signals

/-! ### Signals -/

/-- The signals. -/
inductive Sig
  | hup
  | usr1
  | usr2
  | chld
  | cont
  | stop
  | tstp
  | ttin
  | ttou
  deriving DecidableEq

/-- What a signal does that is delivered to a process without a handler for it. -/
inductive Default
  | terminate
  | ignore
  | stop
  deriving DecidableEq

/-- SIGCONT takes effect when it is sent. -/
def Sig.default : Sig → Default
  | .hup | .usr1 | .usr2 => .terminate
  | .chld | .cont => .ignore
  | .stop | .tstp | .ttin | .ttou => .stop

/-- The signals that stop a process. -/
def Sig.stops : Finset Sig := {.stop, .tstp, .ttin, .ttou}

theorem Sig.mem_stops (s : Sig) : s ∈ Sig.stops ↔ s.default = .stop := by
  cases s <;> decide

/-- The pending signals that are discarded when a signal is sent. -/
def Sig.cancels : Sig → Finset Sig
  | .cont => Sig.stops
  | .stop | .tstp | .ttin | .ttou => {.cont}
  | .hup | .usr1 | .usr2 | .chld => ∅

/-- A signal that discards none is discarded by none. -/
theorem Sig.not_mem_cancels {s : Sig} (h : s.cancels = ∅) (t : Sig) : s ∉ t.cancels := by
  cases s with
  | cont | stop | tstp | ttin | ttou => exact absurd h (by decide)
  | hup | usr1 | usr2 | chld => cases t <;> decide

/-! ### Programs -/

section

variable {E : Type u}

/-- What a program does next; `E` are the lines that it prints.  A call that fails ends the program,
but for `sigprocmask`, whose failure is only reported. -/
inductive Instr (E : Type u)
  | print (e : E)
  | sigemptyset
  | sigaddset (s : Sig)
  | sigdelset (s : Sig)
  /-- `sigprocmask(SIG_SETMASK, &sigset, NULL)` -/
  | sigprocmask
  /-- Sets a handler. -/
  | signal (s : Sig)
  /-- `kill(getpid(), s)` -/
  | kill (s : Sig)
  /-- `sigpending(&sigset_pending)` -/
  | sigpending
  /-- Prints one of two lines, or one or nothing: is `s` in `sigset`? -/
  | ifMember (s : Sig) (e : E) (e' : Option E)
  /-- The same for `sigset_pending`. -/
  | ifPending (s : Sig) (e : E) (e' : Option E)
  | sleep
  | fork
  | wait
  deriving DecidableEq

/-- Whether a process runs. -/
inductive Status
  | running
  | stopped
  | exited
  deriving DecidableEq

structure Process (E : Type u) where
  todo : List (Instr E)
  sigset : Finset Sig
  sigset_pending : Finset Sig
  blocked : Finset Sig
  pending : Finset Sig
  /-- The signals with a handler. -/
  caught : Finset Sig
  status : Status

/-- A program that has just been started. -/
def start (main : List (Instr E)) : Process E := ⟨main, ∅, ∅, ∅, ∅, ∅, .running⟩

/-- A signal is sent to the process. -/
def Process.raise (p : Process E) (s : Sig) : Process E :=
  if p.status = .exited then p
  else
    { p with
      pending := insert s (p.pending \ s.cancels)
      status := if s = .cont then .running else p.status }

/-- The process can make a step of its own: no signal is to be delivered first. -/
def Process.Ready (p : Process E) : Prop := p.status = .running ∧ p.pending ⊆ p.blocked

instance (p : Process E) : Decidable p.Ready := inferInstanceAs (Decidable (_ ∧ _))

/-- `return`, after a call has failed. -/
def Process.quit (p : Process E) : Process E := { p with todo := [] }

def Process.exit (p : Process E) : Process E := { p with todo := [], status := .exited }

/-- The child that `p` forks. -/
def Process.child (p : Process E) (code : List (Instr E)) : Process E :=
  { p with todo := code, pending := ∅ }

/-- The parent has exited.  With `shell` the process group becomes orphaned by that, and a process
that is stopped is to be woken. -/
def Process.orphan (shell : Bool) (p : Process E) : Process E :=
  if shell = true ∧ p.status = .stopped then (p.raise .hup).raise .cont else p

/-- One instruction of the program, with its result, and the line that is printed. -/
def Process.perform (p : Process E) (i : Instr E) (k : List (Instr E)) (ok : Bool) :
    Process E × Option E :=
  match i with
  | .print e => ({ p with todo := k }, some e)
  | .sigemptyset => (if ok then { p with todo := k, sigset := ∅ } else p.quit, none)
  | .sigaddset s =>
      (if ok then { p with todo := k, sigset := insert s p.sigset } else p.quit, none)
  | .sigdelset s =>
      (if ok then { p with todo := k, sigset := p.sigset.erase s } else p.quit, none)
  -- SIGSTOP is not blocked, and no handler can be set for it
  | .sigprocmask =>
      (if ok then { p with todo := k, blocked := p.sigset.erase .stop } else { p with todo := k },
        none)
  | .signal s =>
      (if ok ∧ s ≠ .stop then { p with todo := k, caught := insert s p.caught } else p.quit, none)
  | .kill s => (if ok then { p with todo := k }.raise s else p.quit, none)
  | .sigpending =>
      (if ok then { p with todo := k, sigset_pending := p.pending ∩ p.blocked } else p.quit, none)
  | .ifMember s e e' => ({ p with todo := k }, if s ∈ p.sigset then some e else e')
  | .ifPending s e e' => ({ p with todo := k }, if s ∈ p.sigset_pending then some e else e')
  | .sleep => ({ p with todo := k }, none)
  | .fork | .wait => (if ok then { p with todo := k } else p.quit, none)

/-- What is seen of a step. -/
inductive Event (E : Type u)
  /-- An instruction with its result and the line that it prints. -/
  | did (i : Instr E) (ok : Bool) (line : Option E)
  | handled (s : Sig)
  | stopped
  | exited
  deriving DecidableEq

/-- A pending signal is delivered; only SIGSTOP stops a process of an orphaned process group. -/
def Process.deliver (p : Process E) (s : Sig) (orphaned : Bool) :
    Option (Process E × Option (Event E)) :=
  if p.status = .running ∧ s ∈ p.pending ∧ s ∉ p.blocked then
    let q := { p with pending := p.pending.erase s }
    if s ∈ p.caught then some (q, some (.handled s))
    else
      match s.default with
      | .ignore => some (q, none)
      | .terminate => some (q.exit, some .exited)
      | .stop =>
          some (if orphaned ∧ s ≠ .stop then (q, none)
            else ({ q with status := .stopped }, some .stopped))
  else none

/-! ### What a signal changes -/

variable {p q : Process E}

theorem mem_pending_raise {s t : Sig} (ht : t.cancels = ∅) (h : t ∈ p.pending) :
    t ∈ (p.raise s).pending := by
  by_cases hexited : p.status = .exited
  · rwa [Process.raise, if_pos hexited]
  · rw [Process.raise, if_neg hexited]
    refine Finset.mem_insert_of_mem (Finset.mem_sdiff.2 ⟨h, ?_⟩)
    exact Sig.not_mem_cancels ht s

theorem of_mem_pending_raise {s t : Sig} (h : t ∈ (p.raise s).pending) :
    t = s ∨ t ∈ p.pending := by
  by_cases hexited : p.status = .exited
  · rw [Process.raise, if_pos hexited] at h
    exact Or.inr h
  · rw [Process.raise, if_neg hexited] at h
    rcases Finset.mem_insert.1 h with rfl | h
    · exact Or.inl rfl
    · exact Or.inr (Finset.mem_sdiff.1 h).1

/-- Sending a signal changes what is pending, and may continue the process. -/
theorem raise_eq (p : Process E) (s : Sig) :
    p.raise s = { p with pending := (p.raise s).pending, status := (p.raise s).status } := by
  rw [Process.raise]
  split_ifs <;> rfl

theorem todo_raise (p : Process E) (s : Sig) : (p.raise s).todo = p.todo := by
  rw [raise_eq]

theorem self_mem_pending_raise {s : Sig} (h : p.status ≠ .exited) : s ∈ (p.raise s).pending := by
  rw [Process.raise, if_neg h]
  exact Finset.mem_insert_self _ _

/-- A process that is not stopped is not woken. -/
theorem orphan_of_ne {shell : Bool} (h : p.status ≠ .stopped) : p.orphan shell = p :=
  if_neg fun hstopped => h hstopped.2

/-- What the delivery of a signal leaves. -/
theorem deliver_eq {s : Sig} {orphaned : Bool} {e : Option (Event E)}
    (h : p.deliver s orphaned = some (q, e)) :
    s ∈ p.pending ∧ s ∉ p.blocked ∧ (s ∈ p.caught ↔ e = some (.handled s)) ∧
      q = { p with pending := p.pending.erase s, todo := q.todo, status := q.status } ∧
      (q.todo = p.todo ∨ q.todo = []) := by
  obtain ⟨⟨-, hpending, hblocked⟩, h⟩ := Option.ite_none_right_eq_some.1 h
  refine ⟨hpending, hblocked, ?_⟩
  by_cases hcaught : s ∈ p.caught
  · rw [if_pos hcaught] at h
    cases h
    exact ⟨iff_of_true hcaught rfl, rfl, Or.inl rfl⟩
  · rw [if_neg hcaught] at h
    cases hdefault : s.default with
    | ignore =>
        rw [hdefault] at h
        cases h
        exact ⟨iff_of_false hcaught nofun, rfl, Or.inl rfl⟩
    | terminate =>
        rw [hdefault] at h
        cases h
        exact ⟨iff_of_false hcaught nofun, rfl, Or.inr rfl⟩
    | stop =>
        rw [hdefault] at h
        split_ifs at h
        · cases h
          exact ⟨iff_of_false hcaught nofun, rfl, Or.inl rfl⟩
        · cases h
          exact ⟨iff_of_false hcaught nofun, rfl, Or.inl rfl⟩

theorem todo_perform (p : Process E) (i : Instr E) (k : List (Instr E)) (ok : Bool) :
    (p.perform i k ok).1.todo = k ∨ (p.perform i k ok).1.todo = [] := by
  cases i with
  | print _ | ifMember _ _ _ | ifPending _ _ _ | sleep => exact Or.inl rfl
  | kill s =>
      cases ok with
      | true => exact Or.inl (todo_raise { p with todo := k } s)
      | false => exact Or.inr rfl
  | sigprocmask =>
      cases ok with
      | true => exact Or.inl rfl
      | false => exact Or.inl rfl
  | signal s =>
      rw [Process.perform]
      split_ifs
      · exact Or.inl rfl
      · exact Or.inr rfl
  | sigemptyset | sigaddset _ | sigdelset _ | sigpending | fork | wait =>
      cases ok with
      | true => exact Or.inl rfl
      | false => exact Or.inr rfl

/-! ### The program and its child -/

/-- A program before its fork, or with its child. -/
inductive State (E : Type u)
  | single (p : Process E)
  | forked (p c : Process E) (waited : Bool)

inductive Who
  | parent
  | child
  deriving DecidableEq

/-- The program of a process. -/
def Who.program (main code : List (Instr E)) : Who → List (Instr E)
  | .parent => main
  | .child => code

def State.proc : State E → Who → Option (Process E)
  | .single p, .parent => some p
  | .single _, .child => none
  | .forked p _ _, .parent => some p
  | .forked _ c _, .child => some c

/-- A step of a process itself; `ok` is the result of a call that may fail.  With `shell` the
program has been started by a shell. -/
def own (shell : Bool) (child : List (Instr E)) :
    State E → Who → Bool → Option (State E × Option (Event E))
  | .single p, .parent, ok =>
      if p.Ready then
        match p.todo with
        | [] => some (.single p.exit, some .exited)
        | .fork :: k =>
            if ok then
              some (.forked { p with todo := k } (p.child child) false, some (.did .fork true none))
            else some (.single p.quit, some (.did .fork false none))
        | .wait :: _ => some (.single p.quit, some (.did .wait false none))
        | i :: k => some (.single (p.perform i k ok).1, some (.did i ok (p.perform i k ok).2))
      else none
  | .single _, .child, _ => none
  | .forked p c waited, .parent, ok =>
      if p.Ready then
        match p.todo with
        | [] => some (.forked p.exit (c.orphan shell) waited, some .exited)
        -- no program forks a second time
        | .fork :: _ => none
        | .wait :: k =>
            if c.status = .exited then
              if waited then some (.forked p.quit c true, some (.did .wait false none))
              else some (.forked { p with todo := k } c true, some (.did .wait true none))
            else none
        | i :: k =>
            some (.forked (p.perform i k ok).1 c waited, some (.did i ok (p.perform i k ok).2))
      else none
  | .forked p c waited, .child, ok =>
      if c.Ready then
        match c.todo with
        | [] => some (.forked (p.raise .chld) c.exit waited, some .exited)
        | .fork :: _ => none
        | .wait :: _ => some (.forked p c.quit waited, some (.did .wait false none))
        | i :: k =>
            some (.forked p (c.perform i k ok).1 waited, some (.did i ok (c.perform i k ok).2))
      else none

/-- A signal is delivered.  The process group is orphaned without a shell, and with it once the
first process has exited. -/
def deliver (shell : Bool) : State E → Who → Sig → Option (State E × Option (Event E))
  | .single p, .parent, s => (p.deliver s (!shell)).map fun r => (.single r.1, r.2)
  | .single _, .child, _ => none
  | .forked p c waited, .parent, s =>
      (p.deliver s (!shell)).map fun r =>
        (.forked r.1 (if r.1.status = .exited then c.orphan shell else c) waited, r.2)
  | .forked p c waited, .child, s =>
      (c.deliver s (!shell || p.status = .exited)).map fun r =>
        (.forked (if r.1.status = .running then p else p.raise .chld) r.1 waited, r.2)

/-- A signal is sent from outside; a child that is continued is reported to its parent. -/
def send : State E → Who → Sig → Option (State E)
  | .single p, .parent, s => some (.single (p.raise s))
  | .single _, .child, _ => none
  | .forked p c waited, .parent, s => some (.forked (p.raise s) c waited)
  | .forked p c waited, .child, s =>
      some (.forked (if c.status = .stopped ∧ s = .cont then p.raise .chld else p) (c.raise s)
        waited)

inductive Choice
  | own (w : Who) (ok : Bool)
  | deliver (w : Who) (s : Sig)
  | send (w : Who) (s : Sig)
  deriving DecidableEq

def next (shell : Bool) (child : List (Instr E)) (s : State E) :
    Choice → Option (State E × Option (Event E))
  | .own w ok => own shell child s w ok
  | .deliver w t => deliver shell s w t
  | .send w t => (send s w t).map fun s' => (s', none)

abbrev Label (E : Type u) := Choice × Option (Event E)

/-- **The program with its child**; the signals `outside` may come from outside. -/
def system (shell : Bool) (outside : Finset Sig) (main child : List (Instr E)) :
    Lts (State E) (Label E) :=
  (Lts.ofNext (fun s => s = .single (start main)) (next shell child)).restrict
    fun _ a => ∀ w s, a.1 = .send w s → s ∈ outside

/-- A computed run. -/
theorem exec_of_perform {shell : Bool} {outside : Finset Sig} {main code : List (Instr E)}
    {cs : List Choice} {es : List (Option (Event E))} {s : State E}
    (h : Lts.perform (next shell code) (.single (start main)) cs = some (s, es))
    (hsend : ∀ w t, .send w t ∈ cs → t ∈ outside) :
    (system shell outside main code).Exec (cs.zip es) s := by
  refine Lts.Exec.of_perform rfl h ?_
  rintro c hc - - w t rfl
  exact hsend w t hc

/-! ### What a step does to one process -/

def Choice.who : Choice → Who
  | .own w _ => w
  | .deliver w _ => w
  | .send w _ => w

/-- What a step with the label `a` makes of the process `p`, which is `w`. -/
inductive Changes (w : Who) (p : Process E) : Label E → Process E → Prop
  | same {a : Label E} (h : a.1.who ≠ w) : Changes w p a p
  | did (ok : Bool) {i : Instr E} {k : List (Instr E)} {ok' : Bool} (hready : p.Ready)
      (htodo : p.todo = i :: k) :
      Changes w p (.own w ok', some (.did i ok (p.perform i k ok).2)) (p.perform i k ok).1
  | exit {ok : Bool} (hready : p.Ready) (htodo : p.todo = []) :
      Changes w p (.own w ok, some .exited) p.exit
  | deliver {s : Sig} {orphaned : Bool} {q : Process E} {e : Option (Event E)}
      (h : p.deliver s orphaned = some (q, e)) : Changes w p (.deliver w s, e) q
  | send (s : Sig) : Changes w p (.send w s, none) (p.raise s)
  /-- The child has exited, or has been stopped or continued. -/
  | report {a : Label E} (h : a.1.who ≠ w) (hw : w = .parent) : Changes w p a (p.raise .chld)
  | orphan {a : Label E} {shell : Bool} (h : a.1.who ≠ w) (hw : w = .child) :
      Changes w p a (p.orphan shell)

variable {shell : Bool} {code : List (Instr E)} {s s' : State E}

/-- An own step of the program before it has a child. -/
theorem own_single {p : Process E} {ok : Bool} {e : Option (Event E)}
    (h : own shell code (.single p) .parent ok = some (s', e)) :
    (∃ q, s' = .single q ∧ Changes .parent p (.own .parent ok, e) q) ∨
      ∃ k, p.Ready ∧ p.todo = .fork :: k ∧
        s' = .forked { p with todo := k } (p.child code) false ∧
          e = some (.did .fork true none) := by
  obtain ⟨hready, h⟩ := Option.ite_none_right_eq_some.1 h
  split at h
  case h_1 htodo =>
    cases h
    exact Or.inl ⟨_, rfl, .exit hready htodo⟩
  case h_2 k htodo =>
    cases ok with
    | true =>
        cases h
        exact Or.inr ⟨k, hready, htodo, rfl, rfl⟩
    | false =>
        cases h
        exact Or.inl ⟨_, rfl, .did false hready htodo⟩
  case h_3 k htodo =>
    cases h
    exact Or.inl ⟨_, rfl, .did false hready htodo⟩
  case h_4 i k _ _ htodo =>
    cases h
    exact Or.inl ⟨_, rfl, .did _ hready htodo⟩

/-- An own step of the parent. -/
theorem own_parent {p c : Process E} {waited ok : Bool} {e : Option (Event E)}
    (h : own shell code (.forked p c waited) .parent ok = some (s', e)) :
    (∃ q waited', s' = .forked q c waited' ∧ Changes .parent p (.own .parent ok, e) q ∧
        ∃ i r l, e = some (.did i r l)) ∨
      (s' = .forked p.exit (c.orphan shell) waited ∧ p.Ready ∧ p.todo = [] ∧
        e = some .exited) := by
  obtain ⟨hready, h⟩ := Option.ite_none_right_eq_some.1 h
  split at h
  case h_1 htodo =>
    cases h
    exact Or.inr ⟨rfl, hready, htodo, rfl⟩
  case h_2 => cases h
  case h_3 k htodo =>
    obtain ⟨hexited, h⟩ := Option.ite_none_right_eq_some.1 h
    cases waited with
    | true =>
        cases h
        exact Or.inl ⟨_, _, rfl, .did false hready htodo, _, _, _, rfl⟩
    | false =>
        cases h
        exact Or.inl ⟨_, _, rfl, .did true hready htodo, _, _, _, rfl⟩
  case h_4 i k _ _ htodo =>
    cases h
    exact Or.inl ⟨_, _, rfl, .did _ hready htodo, _, _, _, rfl⟩

/-- An own step of the child. -/
theorem own_child {p c : Process E} {waited ok : Bool} {e : Option (Event E)}
    (h : own shell code (.forked p c waited) .child ok = some (s', e)) :
    (∃ q, s' = .forked p q waited ∧ Changes .child c (.own .child ok, e) q ∧
        ∃ i r l, e = some (.did i r l)) ∨
      (s' = .forked (p.raise .chld) c.exit waited ∧ c.Ready ∧ c.todo = [] ∧ e = some .exited) := by
  obtain ⟨hready, h⟩ := Option.ite_none_right_eq_some.1 h
  split at h
  case h_1 htodo =>
    cases h
    exact Or.inr ⟨rfl, hready, htodo, rfl⟩
  case h_2 => cases h
  case h_3 k htodo =>
    cases h
    exact Or.inl ⟨_, rfl, .did false hready htodo, _, _, _, rfl⟩
  case h_4 i k _ _ htodo =>
    cases h
    exact Or.inl ⟨_, rfl, .did _ hready htodo, _, _, _, rfl⟩

/-- **What a step does to each of the two processes.** -/
theorem changes_of_next {a : Label E} (h : next shell code s a.1 = some (s', a.2)) {w : Who}
    {p : Process E} (hp : s.proc w = some p) : ∃ q, s'.proc w = some q ∧ Changes w p a q := by
  obtain ⟨c, e⟩ := a
  cases s with
  | single r =>
      cases w with
      | child => cases hp
      | parent =>
          cases hp
          cases c with
          | own v ok =>
              cases v with
              | child => cases h
              | parent =>
                  have hown : own shell code (.single p) .parent ok = some (s', e) := h
                  rcases own_single hown with ⟨q, rfl, hq⟩ | ⟨k, hready, htodo, rfl, rfl⟩
                  · exact ⟨q, rfl, hq⟩
                  · exact ⟨_, rfl, .did true hready htodo⟩
          | deliver v t =>
              cases v with
              | child => cases h
              | parent =>
                  obtain ⟨⟨q, e'⟩, hq, heq⟩ := Option.map_eq_some_iff.1 h
                  cases heq
                  exact ⟨q, rfl, .deliver hq⟩
          | send v t =>
              cases v with
              | child => cases h
              | parent =>
                  cases h
                  exact ⟨_, rfl, .send t⟩
  | forked r c' waited =>
      cases c with
      | own v ok =>
          cases v with
          | parent =>
              have hown : own shell code (.forked r c' waited) .parent ok = some (s', e) := h
              rcases own_parent hown with ⟨q, waited', rfl, hq, -⟩ | ⟨rfl, hready, htodo, rfl⟩
              · cases w with
                | parent =>
                    cases hp
                    exact ⟨q, rfl, hq⟩
                | child => exact ⟨p, hp, .same (by simp [Choice.who])⟩
              · cases w with
                | parent =>
                    cases hp
                    exact ⟨_, rfl, .exit hready htodo⟩
                | child =>
                    cases hp
                    exact ⟨_, rfl, .orphan (by simp [Choice.who]) rfl⟩
          | child =>
              have hown : own shell code (.forked r c' waited) .child ok = some (s', e) := h
              rcases own_child hown with ⟨q, rfl, hq, -⟩ | ⟨rfl, hready, htodo, rfl⟩
              · cases w with
                | parent => exact ⟨p, hp, .same (by simp [Choice.who])⟩
                | child =>
                    cases hp
                    exact ⟨q, rfl, hq⟩
              · cases w with
                | parent =>
                    cases hp
                    exact ⟨_, rfl, .report (by simp [Choice.who]) rfl⟩
                | child =>
                    cases hp
                    exact ⟨_, rfl, .exit hready htodo⟩
      | deliver v t =>
          cases v with
          | parent =>
              obtain ⟨⟨q, e'⟩, hq, heq⟩ := Option.map_eq_some_iff.1 h
              cases heq
              cases w with
              | parent =>
                  cases hp
                  exact ⟨q, rfl, .deliver hq⟩
              | child =>
                  cases hp
                  refine ⟨_, rfl, ?_⟩
                  split_ifs
                  · exact .orphan (by simp [Choice.who]) rfl
                  · exact .same (by simp [Choice.who])
          | child =>
              obtain ⟨⟨q, e'⟩, hq, heq⟩ := Option.map_eq_some_iff.1 h
              cases heq
              cases w with
              | parent =>
                  cases hp
                  refine ⟨_, rfl, ?_⟩
                  split_ifs
                  · exact .same (by simp [Choice.who])
                  · exact .report (by simp [Choice.who]) rfl
              | child =>
                  cases hp
                  exact ⟨q, rfl, .deliver hq⟩
      | send v t =>
          cases v with
          | parent =>
              cases h
              cases w with
              | parent =>
                  cases hp
                  exact ⟨_, rfl, .send t⟩
              | child => exact ⟨p, hp, .same (by simp [Choice.who])⟩
          | child =>
              cases h
              cases w with
              | parent =>
                  cases hp
                  refine ⟨_, rfl, ?_⟩
                  split_ifs
                  · exact .report (by simp [Choice.who]) rfl
                  · exact .same (by simp [Choice.who])
              | child =>
                  cases hp
                  exact ⟨_, rfl, .send t⟩

/-- A program only gets shorter. -/
theorem todo_suffix_of_changes {w : Who} {a : Label E} (h : Changes w p a q) :
    q.todo <:+ p.todo := by
  cases h with
  | same _ => exact List.suffix_rfl
  | @did ok i k _ hready htodo =>
      rw [htodo]
      rcases todo_perform p i k ok with hk | hnil
      · rw [hk]
        exact List.suffix_cons i k
      · rw [hnil]
        exact List.nil_suffix
  | exit _ _ => exact List.nil_suffix
  | deliver hq =>
      obtain ⟨-, -, -, -, heq | hnil⟩ := deliver_eq hq
      · rw [heq]
      · rw [hnil]
        exact List.nil_suffix
  | send s => rw [todo_raise]
  | report _ _ => rw [todo_raise]
  | orphan _ _ =>
      rw [Process.orphan]
      split_ifs
      · rw [todo_raise, todo_raise]
      · exact List.suffix_rfl

/-- A child appears when it is forked. -/
theorem born_of_next {a : Label E} {c : Process E} (h : next shell code s a.1 = some (s', a.2))
    (hnone : s.proc .child = none) (hc : s'.proc .child = some c) :
    ∃ p k ok, s.proc .parent = some p ∧ p.Ready ∧ p.todo = .fork :: k ∧ c = p.child code ∧
      a = (.own .parent ok, some (.did .fork true none)) := by
  obtain ⟨d, e⟩ := a
  cases s with
  | forked r c' waited => cases hnone
  | single r =>
      cases d with
      | own v ok =>
          cases v with
          | child => cases h
          | parent =>
              have hown : own shell code (.single r) .parent ok = some (s', e) := h
              rcases own_single hown with ⟨q, rfl, hq⟩ | ⟨k, hready, htodo, rfl, rfl⟩
              · cases hc
              · cases hc
                exact ⟨r, k, ok, rfl, hready, htodo, rfl, rfl⟩
      | deliver v t =>
          cases v with
          | child => cases h
          | parent =>
              obtain ⟨⟨q, e'⟩, hq, heq⟩ := Option.map_eq_some_iff.1 h
              cases heq
              cases hc
      | send v t =>
          cases v with
          | child => cases h
          | parent =>
              cases h
              cases hc

/-- **What holds of one of the two processes in every run**: it holds when the process comes into
being, as the first one or by the fork, and it is kept by what a step does to the process. -/
theorem proc_invariant {outside : Finset Sig} {main : List (Instr E)} {w : Who}
    {I : List (Label E) → Process E → Prop} (hstart : w = .parent → I [] (start main))
    (hborn : ∀ as s (p : Process E) ok, (system shell outside main code).Exec as s →
      s.proc .child = none → w = .child → p.Ready →
        I (as ++ [(.own .parent ok, some (.did .fork true none))]) (p.child code))
    (hstep : ∀ as s a p q, (system shell outside main code).Exec as s → s.proc w = some p →
      I as p → (∀ t, a.1 = .send w t → t ∈ outside) → Changes w p a q → I (as ++ [a]) q)
    {as : List (Label E)} (h : (system shell outside main code).Exec as s) :
    ∀ p, s.proc w = some p → I as p := by
  refine Lts.Exec.invariant (I := fun as s => ∀ p, s.proc w = some p → I as p) ?_ ?_ h
  · rintro s rfl p hp
    cases w with
    | child => cases hp
    | parent =>
        cases hp
        exact hstart rfl
  · intro as s a s' hr ih hs q hq
    obtain ⟨hnext, hsend⟩ := hs
    cases hp : s.proc w with
    | some p =>
        obtain ⟨q', hq', hc⟩ := changes_of_next hnext hp
        obtain rfl : q' = q := Option.some_inj.1 (hq'.symm.trans hq)
        exact hstep as s a p q' hr hp (ih p hp) (hsend w) hc
    | none =>
        -- the child has just been forked
        cases w with
        | parent => cases s <;> cases hp
        | child =>
            obtain ⟨p, k, ok, -, hready, -, rfl, rfl⟩ := born_of_next hnext hp hq
            exact hborn as s p ok hr hp rfl hready

end

end Signals
