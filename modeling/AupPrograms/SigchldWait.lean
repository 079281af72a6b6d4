/-
**A handler that waits for the child that `main` waits for as well**
(`assignment_9/sigchld_wait_sync.c`).

The parent installs `sig_chld`, forks and waits for its child; the handler calls `wait` too.
SIGCHLD can come at any time and any number of times: when the child exits, when it is stopped or
continued, or from outside.  It is blocked while the handler runs, and the `wait` of `main` starts
again after the handler has interrupted it.  So the child can be reaped before `main` waits, within
the handler that interrupts `main`, or by `main` itself; and a signal without an exit makes the
handler wait.

Main definitions:

* `SigchldWait.St`, `SigchldWait.next` — the parent, its handler, the child and the signals;
* `SigchldWait.wait` — one call of `wait`;
* `SigchldWait.Inv` — what holds in every run.

Main results:

* `SigchldWait.inv` — the invariant;
* `SigchldWait.one_wait_reaps` — **when `main` has returned, exactly one `wait` has reaped the child
  and all others have failed.**
-/

import AupPrograms.Lts

set_option relaxedAutoImplicit false
set_option autoImplicit false

namespace SigchldWait

/-! ### The parent, the handler and the child -/

/-- The child process. -/
inductive Child
  | none
  | running
  | stopped
  /-- It has exited and has not been waited for. -/
  | zombie
  | reaped
  deriving DecidableEq

/-- Where the parent is in `main`. -/
inductive Pc
  | signal
  | fork
  | wait
  /-- The result is to be printed. -/
  | print
  | returned
  /-- `return errno` after `signal` has failed. -/
  | signalFailed
  /-- `return errno` after `fork` has failed. -/
  | forkFailed
  deriving DecidableEq

/-- Where a run of `sig_chld` is. -/
inductive HandlerPc
  | enter
  | wait
  | print
  deriving DecidableEq

/-- Who calls `wait`. -/
inductive Caller
  | main
  | sig_chld
  deriving DecidableEq

/-- The parent with its handler, its pending signal and its child. -/
structure St where
  main : Pc
  /-- The run of the handler, during which SIGCHLD is blocked. -/
  handler : Option HandlerPc
  pending : Bool
  child : Child
  deriving DecidableEq

/-- A call of `wait` returns: the child is reaped, or the result is -1. -/
structure Event where
  caller : Caller
  reaped : Bool
  deriving DecidableEq

/-- The start of the program. -/
def started : St := ⟨.signal, none, false, .none⟩

/-- SIGCHLD is sent to the parent.  It is discarded while the handler is not installed, and a signal
that is pending already is not queued. -/
def St.raise (s : St) : St :=
  match s.main with
  | .signal | .signalFailed => s
  | _ => { s with pending := true }

/-- A call of `wait`: whether it reaps the child, and the child afterwards.  It does not return
while there is a child that has not exited. -/
def wait : Child → Option (Bool × Child)
  | .none => some (false, .none)
  | .running | .stopped => none
  | .zombie => some (true, .reaped)
  | .reaped => some (false, .reaped)

/-- A step of `main`, whose call fails unless `ok`.  It makes none while the handler runs. -/
def main (s : St) (ok : Bool) : Option (St × Option Event) :=
  if s.handler ≠ none then none
  else
    match s.main with
    | .signal => some ({ s with main := if ok then .fork else .signalFailed }, none)
    | .fork =>
        some (if ok then { s with main := .wait, child := .running }
          else { s with main := .forkFailed }, none)
    | .wait =>
        (wait s.child).map fun r => ({ s with main := .print, child := r.2 }, some ⟨.main, r.1⟩)
    | .print => some ({ s with main := .returned }, none)
    | .returned | .signalFailed | .forkFailed => none

/-- A step of `sig_chld`. -/
def sig_chld (s : St) : Option (St × Option Event) :=
  match s.handler with
  | none => none
  | some .enter => some ({ s with handler := some .wait }, none)
  | some .wait =>
      (wait s.child).map fun r =>
        ({ s with handler := some .print, child := r.2 }, some ⟨.sig_chld, r.1⟩)
  | some .print => some ({ s with handler := none }, none)

/-- What the child or somebody outside does. -/
inductive Action
  /-- The child comes to its end. -/
  | exit
  /-- It is killed from outside. -/
  | kill
  | stop
  | continue
  /-- SIGCHLD is sent from outside. -/
  | send
  deriving DecidableEq

/-- The child exits, is killed, also while it is stopped, or is stopped or continued.  Each of these
sends SIGCHLD. -/
def act (s : St) : Action → Option St
  | .exit => if s.child = .running then some { s with child := .zombie }.raise else none
  | .kill =>
      if s.child = .running ∨ s.child = .stopped then some { s with child := .zombie }.raise
      else none
  | .stop => if s.child = .running then some { s with child := .stopped }.raise else none
  | .continue => if s.child = .stopped then some { s with child := .running }.raise else none
  | .send => some s.raise

/-- Who makes a step. -/
inductive Choice
  | main (ok : Bool)
  | sig_chld
  /-- SIGCHLD is delivered to the parent. -/
  | deliver
  | act (a : Action)
  deriving DecidableEq

def next (s : St) : Choice → Option (St × Option Event)
  | .main ok => main s ok
  | .sig_chld => sig_chld s
  | .deliver =>
      if s.pending ∧ s.handler = none then
        some ({ s with pending := false, handler := some .enter }, none)
      else none
  | .act a => (act s a).map fun s' => (s', none)

abbrev Label := Choice × Option Event

/-- The parent and its child, with any signals. -/
def system : Lts St Label := Lts.ofNext (fun s => s = started) next

/-- The calls of `wait` that have returned during a run. -/
def waits (as : List Label) : List Event := as.filterMap Prod.snd

/-! ### The invariant -/

/-- The number of calls of `wait` that have reaped the child. -/
def reaps (as : List Label) : ℕ := (waits as).countP Event.reaped

@[simp] theorem reaps_snoc (as : List Label) (c : Choice) (e : Option Event) :
    reaps (as ++ [(c, e)]) = reaps as + e.toList.countP Event.reaped := by
  cases e <;> simp [reaps, waits]

/-- `main` is behind its successful `fork`. -/
def Pc.forked : Pc → Bool
  | .wait | .print | .returned => true
  | .signal | .fork | .signalFailed | .forkFailed => false

/-- `main` is behind its `wait`. -/
def Pc.waited : Pc → Bool
  | .print | .returned => true
  | .signal | .fork | .wait | .signalFailed | .forkFailed => false

/-- **What holds in every run.** -/
structure Inv (as : List Label) (s : St) : Prop where
  /-- As many calls of `wait` have reaped the child as it has been reaped. -/
  once : reaps as = if s.child = .reaped then 1 else 0
  /-- There is a child after the `fork`. -/
  forked : s.child = .none ↔ s.main.forked = false
  /-- The `wait` of `main` returns when the child has been reaped. -/
  waited : s.main.waited → s.child = .reaped

theorem inv_started : Inv [] started := ⟨rfl, by decide, by decide⟩

/-- A call of `wait` counts if it reaps the child, and leaves it reaped if there is one. -/
theorem wait_spec {child child' : Child} {b : Bool} (h : wait child = some (b, child')) :
    ((if child = .reaped then 1 else 0) + if b then 1 else 0 : ℕ)
      = (if child' = .reaped then 1 else 0) ∧
    (child' = .none ↔ child = .none) ∧ (child ≠ .none → child' = .reaped) := by
  cases child with
  | running | stopped => cases h
  | none | zombie | reaped =>
      obtain ⟨rfl, rfl⟩ := Prod.mk.inj (Option.some_inj.1 h)
      simp

section Steps

variable {as : List Label} {s s' : St} {c : Choice} {e : Option Event}

/-- A step that leaves the child as it is and does not bring `main` behind a call of its own. -/
theorem Inv.silent (h : Inv as s) (hchild : s'.child = s.child)
    (hforked : s'.main.forked = s.main.forked) (hwaited : s'.main.waited = s.main.waited) :
    Inv (as ++ [(c, none)]) s' :=
  ⟨by simpa [hchild] using h.once, by rw [hchild, hforked]; exact h.forked,
    by rw [hchild, hwaited]; exact h.waited⟩

/-- A `wait` returns, of `main` or of the handler. -/
theorem Inv.wait {b : Bool} {child' : Child} {w : Caller} (h : Inv as s)
    (hw : SigchldWait.wait s.child = some (b, child')) (hchild : s'.child = child')
    (hforked : s'.main.forked = s.main.forked)
    (hwaited : s'.main.waited → s.main.waited ∨ s.main.forked) :
    Inv (as ++ [(c, some ⟨w, b⟩)]) s' := by
  obtain ⟨hcount, hnone, hreaped⟩ := wait_spec hw
  subst hchild
  refine ⟨?_, ?_, ?_⟩
  · rw [← hcount, ← h.once]
    cases b <;> simp
  · rw [hnone, hforked]
    exact h.forked
  · intro hm
    refine hreaped fun hn => ?_
    rcases hwaited hm with hm | hm
    · rw [h.waited hm] at hn
      cases hn
    · rw [h.forked.1 hn] at hm
      cases hm

/-- A step of `main`. -/
theorem Inv.main {ok : Bool} (h : Inv as s) (hs : SigchldWait.main s ok = some (s', e)) :
    Inv (as ++ [(c, e)]) s' := by
  rw [SigchldWait.main] at hs
  split at hs
  · cases hs
  · split at hs
    case h_1 hpc =>
      obtain ⟨rfl, rfl⟩ := Prod.mk.inj (Option.some_inj.1 hs)
      cases ok <;> exact h.silent rfl (by simp [hpc, Pc.forked]) (by simp [hpc, Pc.waited])
    case h_2 hpc =>
      obtain ⟨rfl, rfl⟩ := Prod.mk.inj (Option.some_inj.1 hs)
      have hnone : s.child = .none := h.forked.2 (by rw [hpc]; rfl)
      cases ok with
      | true => exact ⟨by simpa [hnone] using h.once, by simp [Pc.forked], by simp [Pc.waited]⟩
      | false => exact h.silent rfl (by simp [hpc, Pc.forked]) (by simp [hpc, Pc.waited])
    case h_3 hpc =>
      obtain ⟨⟨b, child'⟩, hw, hr⟩ := Option.map_eq_some_iff.1 hs
      obtain ⟨rfl, rfl⟩ := Prod.mk.inj hr
      exact h.wait hw rfl (by simp [hpc, Pc.forked]) (by simp [hpc, Pc.forked])
    case h_4 hpc =>
      obtain ⟨rfl, rfl⟩ := Prod.mk.inj (Option.some_inj.1 hs)
      exact h.silent rfl (by simp [hpc, Pc.forked]) (by simp [hpc, Pc.waited])
    all_goals cases hs

/-- A step of the handler. -/
theorem Inv.sig_chld (h : Inv as s) (hs : SigchldWait.sig_chld s = some (s', e)) :
    Inv (as ++ [(c, e)]) s' := by
  rw [SigchldWait.sig_chld] at hs
  split at hs
  case h_1 => cases hs
  case h_3 =>
    obtain ⟨⟨b, child'⟩, hw, hr⟩ := Option.map_eq_some_iff.1 hs
    obtain ⟨rfl, rfl⟩ := Prod.mk.inj hr
    exact h.wait hw rfl rfl Or.inl
  all_goals
    obtain ⟨rfl, rfl⟩ := Prod.mk.inj (Option.some_inj.1 hs)
    exact h.silent rfl rfl rfl

@[simp] theorem raise_main (s : St) : s.raise.main = s.main := by
  unfold St.raise
  split <;> rfl

@[simp] theorem raise_child (s : St) : s.raise.child = s.child := by
  unfold St.raise
  split <;> rfl

/-- The child exits, is stopped or continued: one that has not exited before it has not been
waited for. -/
theorem Inv.child (h : Inv as s) (hbefore : s.child = .running ∨ s.child = .stopped)
    (hmain : s'.main = s.main) (hafter : s'.child ≠ .none ∧ s'.child ≠ .reaped) :
    Inv (as ++ [(c, none)]) s' := by
  have hnone : s.child ≠ .none := by rintro hn; simp [hn] at hbefore
  have hreaped : s.child ≠ .reaped := by rintro hn; simp [hn] at hbefore
  refine ⟨by simpa [hreaped, hafter.2] using h.once, ?_, ?_⟩
  · rw [hmain, ← h.forked]
    exact iff_of_false hafter.1 hnone
  · rw [hmain]
    intro hm
    exact absurd (h.waited hm) hreaped

/-- A step of the child or of somebody outside. -/
theorem Inv.act {a : Action} (h : Inv as s) (hs : SigchldWait.act s a = some s') :
    Inv (as ++ [(c, none)]) s' := by
  cases a with
  | exit =>
      obtain ⟨hc, hs⟩ := Option.ite_none_right_eq_some.1 hs
      obtain rfl := Option.some_inj.1 hs
      exact h.child (Or.inl hc) (by simp) (by simp)
  | kill =>
      obtain ⟨hc, hs⟩ := Option.ite_none_right_eq_some.1 hs
      obtain rfl := Option.some_inj.1 hs
      exact h.child hc (by simp) (by simp)
  | stop =>
      obtain ⟨hc, hs⟩ := Option.ite_none_right_eq_some.1 hs
      obtain rfl := Option.some_inj.1 hs
      exact h.child (Or.inl hc) (by simp) (by simp)
  | «continue» =>
      obtain ⟨hc, hs⟩ := Option.ite_none_right_eq_some.1 hs
      obtain rfl := Option.some_inj.1 hs
      exact h.child (Or.inr hc) (by simp) (by simp)
  | send =>
      obtain rfl := Option.some_inj.1 hs
      exact h.silent (by simp) (by simp) (by simp)

end Steps

/-- **The invariant holds in every run.** -/
theorem inv {as : List Label} {s : St} (h : system.Exec as s) : Inv as s := by
  refine Lts.Exec.invariant (I := Inv) ?_ ?_ h
  · rintro s rfl
    exact inv_started
  · rintro as s ⟨c, e⟩ s' - hi hs
    change next s c = some (s', e) at hs
    cases c with
    | main ok => exact hi.main hs
    | sig_chld => exact hi.sig_chld hs
    | deliver =>
        obtain ⟨-, hs⟩ := Option.ite_none_right_eq_some.1 hs
        obtain ⟨rfl, rfl⟩ := Prod.mk.inj (Option.some_inj.1 hs)
        exact hi.silent rfl rfl rfl
    | act a =>
        obtain ⟨s₁, ha, hr⟩ := Option.map_eq_some_iff.1 hs
        obtain ⟨rfl, rfl⟩ := Prod.mk.inj hr
        exact hi.act ha

/-! ### Who reaps the child -/

/-- What a count of one says. -/
theorem exists_of_countP_eq_one {α : Type*} {p : α → Bool} {l : List α} (h : l.countP p = 1) :
    ∃ l₁ a l₂, l = l₁ ++ a :: l₂ ∧ p a ∧ ∀ b ∈ l₁ ++ l₂, ¬ p b := by
  rw [List.countP_eq_length_filter, List.length_eq_one_iff] at h
  obtain ⟨a, ha⟩ := h
  obtain ⟨l₁, l₂, rfl, h₁, hp, h₂⟩ := List.filter_eq_cons_iff.1 ha
  refine ⟨l₁, a, l₂, rfl, hp, fun b hb => ?_⟩
  rcases List.mem_append.1 hb with hb | hb
  · exact h₁ b hb
  · exact List.filter_eq_nil_iff.1 h₂ b hb

/-- **Exactly one `wait` reaps the child**: when `main` has returned, the child is reaped, one call
of `wait` has succeeded and all others, of `main` and of the handler, have returned -1.  Where
`main` has returned an error there is no child, and no call has succeeded. -/
theorem one_wait_reaps {as : List Label} {s : St} (h : system.Exec as s) :
    (s.main = .returned → s.child = .reaped ∧
      ∃ es₁ e es₂, waits as = es₁ ++ e :: es₂ ∧ e.reaped ∧ ∀ e' ∈ es₁ ++ es₂, ¬ e'.reaped) ∧
    (s.main = .signalFailed ∨ s.main = .forkFailed → s.child = .none ∧
      ∀ e ∈ waits as, ¬ e.reaped) := by
  have hi := inv h
  constructor
  · intro hm
    have hc : s.child = .reaped := hi.waited (by rw [hm]; rfl)
    exact ⟨hc, exists_of_countP_eq_one (hi.once.trans (if_pos hc))⟩
  · intro hm
    have hc : s.child = .none := hi.forked.2 (by rcases hm with hm | hm <;> rw [hm] <;> rfl)
    have hzero : reaps as = 0 := hi.once.trans (if_neg (by rw [hc]; decide))
    exact ⟨hc, List.countP_eq_zero.1 hzero⟩

/-- A signal comes from outside and makes the handler wait; the child is stopped, continued and
exits; the handler reaps it and runs once more before `main` goes on with its `wait`. -/
def outside : List Choice :=
  [.main true, .main true, .act .send, .deliver, .sig_chld, .act .stop, .act .continue, .act .exit,
    .sig_chld, .sig_chld, .deliver, .sig_chld, .sig_chld, .sig_chld, .main true, .main true]

theorem one_wait_reaps_outside : ∃ as s, system.Exec as s ∧ s.main = .returned ∧
    s.child = .reaped ∧
      ∃ es₁ e es₂, waits as = es₁ ++ e :: es₂ ∧ e.reaped ∧ ∀ e' ∈ es₁ ++ es₂, ¬ e'.reaped := by
  have h : (Lts.perform next started outside).map (fun r => r.1.main) = some .returned := by decide
  obtain ⟨⟨s, es⟩, hperform, hmain⟩ := Option.map_eq_some_iff.1 h
  have hex : system.Exec (outside.zip es) s := ⟨started, rfl, (Lts.run_of_perform hperform).1⟩
  exact ⟨_, s, hex, hmain, (one_wait_reaps hex).1 hmain⟩

end SigchldWait
