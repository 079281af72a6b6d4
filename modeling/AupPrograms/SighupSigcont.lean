/-
**A stopped child whose parent exits: `assignment_8/sighup_sigcont.c`.**

The child sets handlers for SIGHUP and SIGCONT and stops itself with SIGTSTP.  The parent sleeps and
exits, which leaves the child in a process group that nobody can continue; so the child is sent
SIGHUP and SIGCONT, runs both handlers, and goes on.  If the parent has exited before SIGTSTP is
delivered, or the program has not been started by a shell, the child is not stopped at all.  The
program is a job of its own: nobody else is in its process group.

Main definitions:

* `SighupSigcont.main`, `SighupSigcont.child` — the program;
* `SighupSigcont.seen` — what is seen of the child;
* `SighupSigcont.Phase` — what the child has done so far.

Main results:

* `SighupSigcont.child_traces` — **what can be seen of the child in a finished run**;
* `SighupSigcont.handled_after_exit` — **handlers only run after the child has been stopped and then
  the parent has exited**;
* `SighupSigcont.child_finishes` — **the child is never left stopped**.
-/

import AupPrograms.SignalRuns

set_option relaxedAutoImplicit false
set_option autoImplicit false

namespace SighupSigcont

open Signals

/-! ### The program -/

/-- The lines of `pr_ids`, without the ids. -/
inductive Line
  | ids (w : Who)
  deriving DecidableEq

def main : List (Instr Line) := [.print (.ids .parent), .fork, .sleep]

def child : List (Instr Line) :=
  [.print (.ids .child), .signal .hup, .signal .cont, .kill .tstp, .print (.ids .child)]

/-- What can be seen of the child. -/
inductive Seen
  | ids
  | stopped
  | handled (s : Sig)
  | exited
  deriving DecidableEq

def seen : Label Line → Option Seen
  | (.own .child _, some (.did (.print _) _ _)) => some .ids
  | (.deliver .child _, some .stopped) => some .stopped
  | (.deliver .child _, some (.handled s)) => some (.handled s)
  | (.own .child _, some .exited) | (.deliver .child _, some .exited) => some .exited
  | _ => none

/-- What is seen of a child that has not been stopped. -/
def plain : List Seen := [.ids, .ids, .exited]

/-- What is seen of a child that has been stopped, with the order of the handlers. -/
def continued (s t : Sig) : List Seen := [.ids, .stopped, .handled s, .handled t, .ids, .exited]

/-- What can be seen of the child; only a shell can have it stopped. -/
def traces (shell : Bool) : Set (List Seen) :=
  {es | es = plain ∨ shell = true ∧ (es = continued .hup .cont ∨ es = continued .cont .hup)}

/-! ### The child -/

/-- The child before its instruction `n`. -/
def childAt (n : ℕ) (pending caught : Finset Sig) : Process Line :=
  ⟨child.drop n, ∅, ∅, ∅, pending, caught, .running⟩

/-- **What the child has done so far**: whether the parent has exited, what has been seen of the
child, and how it is. -/
inductive Phase (shell : Bool) : Bool → List Seen → Process Line → Prop
  | start (gone : Bool) : Phase shell gone [] (childAt 0 ∅ ∅)
  | printed (gone : Bool) : Phase shell gone [.ids] (childAt 1 ∅ ∅)
  | hup (gone : Bool) : Phase shell gone [.ids] (childAt 2 ∅ {.hup})
  | cont (gone : Bool) : Phase shell gone [.ids] (childAt 3 ∅ {.cont, .hup})
  | sent (gone : Bool) : Phase shell gone [.ids] (childAt 4 {.tstp} {.cont, .hup})
  | stopped (h : shell = true) :
      Phase shell false [.ids, .stopped] { childAt 4 ∅ {.cont, .hup} with status := .stopped }
  | woken (h : shell = true) :
      Phase shell true [.ids, .stopped] (childAt 4 {.cont, .hup} {.cont, .hup})
  | handled (h : shell = true) {s t : Sig} (hst : s = .hup ∧ t = .cont ∨ s = .cont ∧ t = .hup) :
      Phase shell true [.ids, .stopped, .handled s] (childAt 4 {t} {.cont, .hup})
  | ready (gone : Bool) {es : List Seen} (h : es ++ [.ids, .exited] ∈ traces shell) :
      Phase shell gone es (childAt 4 ∅ {.cont, .hup})
  | last (gone : Bool) {es : List Seen} (h : es ++ [.exited] ∈ traces shell) :
      Phase shell gone es (childAt 5 ∅ {.cont, .hup})
  | exited (gone : Bool) {es : List Seen} {c : Process Line} (h : es ∈ traces shell)
      (hpending : c.pending = ∅) (hexited : c.status = .exited) : Phase shell gone es c

variable {shell gone waited : Bool} {es : List Seen} {p c c' : Process Line} {s : State Line}

/-- The calls that can fail. -/
def calls : List (Instr Line) := [.fork, .signal .hup, .signal .cont, .kill .tstp]

/-- None of the calls has failed. -/
def Succeeds (as : List (Label Line)) : Prop :=
  ∀ i ∈ calls, ∀ w ok l, (.own w ok, some (.did i false l)) ∉ as

theorem succeeds_append {as bs : List (Label Line)} :
    Succeeds (as ++ bs) ↔ Succeeds as ∧ Succeeds bs := by
  constructor
  · intro h
    exact ⟨fun i hi w ok l hmem => h i hi w ok l (List.mem_append_left _ hmem),
      fun i hi w ok l hmem => h i hi w ok l (List.mem_append_right _ hmem)⟩
  · rintro ⟨has, hbs⟩ i hi w ok l hmem
    rcases List.mem_append.1 hmem with hmem | hmem
    · exact has i hi w ok l hmem
    · exact hbs i hi w ok l hmem

/-- The child makes a step. -/
theorem Phase.own {ok : Bool} {e : Option (Event Line)} (h : Phase shell gone es c)
    (hs : own shell child (.forked p c waited) .child ok = some (s, e))
    (hok : Succeeds [(.own .child ok, e)]) :
    ∃ p' c', s = .forked p' c' waited ∧ (p' = p ∨ p' = p.raise .chld) ∧
      Phase shell gone (es ++ (seen (.own .child ok, e)).toList) c' := by
  obtain ⟨hready, hs⟩ := Option.ite_none_right_eq_some.1 hs
  have hfails : ∀ i ∈ calls, ok = false → e ≠ some (.did i ok none) := by
    rintro i hi rfl rfl
    exact hok i hi .child false none (List.mem_singleton_self _)
  cases h with
  | start =>
      cases hs
      exact ⟨_, _, rfl, Or.inl rfl, .printed gone⟩
  | printed =>
      cases ok with
      | false =>
          cases hs
          exact absurd rfl (hfails (.signal .hup) (by decide) rfl)
      | true =>
          cases hs
          exact ⟨_, _, rfl, Or.inl rfl, .hup gone⟩
  | hup =>
      cases ok with
      | false =>
          cases hs
          exact absurd rfl (hfails (.signal .cont) (by decide) rfl)
      | true =>
          cases hs
          exact ⟨_, _, rfl, Or.inl rfl, .cont gone⟩
  | cont =>
      cases ok with
      | false =>
          cases hs
          exact absurd rfl (hfails (.kill .tstp) (by decide) rfl)
      | true =>
          cases hs
          exact ⟨_, _, rfl, Or.inl rfl, .sent gone⟩
  | sent => exact absurd hready (by decide)
  | stopped => cases hready.1
  | woken => exact absurd hready (by decide)
  | handled hshell hst =>
      rcases hst with ⟨rfl, rfl⟩ | ⟨rfl, rfl⟩ <;> exact absurd hready (by decide)
  | ready _ hes =>
      cases hs
      refine ⟨_, _, rfl, Or.inl rfl, .last gone ?_⟩
      rw [List.append_assoc]
      exact hes
  | last _ hes =>
      cases hs
      exact ⟨_, _, rfl, Or.inr rfl, .exited gone hes rfl rfl⟩
  | exited _ _ _ hexited => cases hready.1.symm.trans hexited

/-- A signal is delivered to the child. -/
theorem Phase.deliver {t : Sig} {e : Option (Event Line)} (h : Phase shell gone es c)
    (hd : c.deliver t (!shell || gone) = some (c', e)) :
    Phase shell gone (es ++ (seen (.deliver .child t, e)).toList) c' ∧
      (e = some .stopped → gone = false) := by
  obtain ⟨hmem, -⟩ := deliver_eq hd
  cases h with
  | start | printed | hup | cont | stopped | ready | last =>
      exact absurd hmem (Finset.notMem_empty t)
  | exited _ _ hpending _ =>
      rw [hpending] at hmem
      exact absurd hmem (Finset.notMem_empty t)
  | sent =>
      obtain rfl := Finset.mem_singleton.1 hmem
      cases shell with
      | false =>
          cases hd
          exact ⟨.ready gone (Or.inl rfl), nofun⟩
      | true =>
          cases gone with
          | true =>
              cases hd
              exact ⟨.ready true (Or.inl rfl), nofun⟩
          | false =>
              cases hd
              exact ⟨.stopped rfl, fun _ => rfl⟩
  | woken hshell =>
      rcases Finset.mem_insert.1 hmem with rfl | hmem
      · cases hd
        exact ⟨.handled hshell (Or.inr ⟨rfl, rfl⟩), nofun⟩
      · obtain rfl := Finset.mem_singleton.1 hmem
        cases hd
        exact ⟨.handled hshell (Or.inl ⟨rfl, rfl⟩), nofun⟩
  | handled hshell hst =>
      obtain rfl := Finset.mem_singleton.1 hmem
      rcases hst with ⟨rfl, rfl⟩ | ⟨rfl, rfl⟩
      · cases hd
        exact ⟨.ready true (Or.inr ⟨hshell, Or.inl rfl⟩), nofun⟩
      · cases hd
        exact ⟨.ready true (Or.inr ⟨hshell, Or.inr rfl⟩), nofun⟩

/-- The parent exits, and the child is not stopped. -/
theorem Phase.left (h : Phase shell false es c) (hc : c.status ≠ .stopped) :
    Phase shell true es c := by
  cases h with
  | start => exact .start true
  | printed => exact .printed true
  | hup => exact .hup true
  | cont => exact .cont true
  | sent => exact .sent true
  | stopped _ => exact absurd rfl hc
  | ready _ hes => exact .ready true hes
  | last _ hes => exact .last true hes
  | exited _ hes hpending hexited => exact .exited true hes hpending hexited

/-- The parent exits. -/
theorem Phase.orphan (h : Phase shell false es c) : Phase shell true es (c.orphan shell) := by
  by_cases hc : c.status = .stopped
  · cases h with
    | stopped hshell =>
        subst hshell
        exact .woken rfl
    | start | printed | hup | cont | sent | ready | last => cases hc
    | exited _ _ _ hexited => cases hexited.symm.trans hc
  · rw [orphan_of_ne hc]
    exact h.left hc

/-! ### The parent -/

/-- The parent after the fork. -/
structure Parent (p : Process Line) : Prop where
  todo : p.todo = [.sleep] ∨ p.todo = []
  pending : p.pending ⊆ {.chld}
  caught : p.caught = ∅
  status : p.status ≠ .stopped

theorem Parent.raise (h : Parent p) : Parent (p.raise .chld) where
  todo := by
    rw [todo_raise]
    exact h.todo
  pending t ht := by
    rcases of_mem_pending_raise ht with rfl | ht
    · exact Finset.mem_singleton_self _
    · exact h.pending ht
  caught := by
    rw [raise_eq]
    exact h.caught
  status hstopped := h.status ((status_raise .chld p).2 hstopped)

/-- The parent makes a step. -/
theorem Parent.own {ok : Bool} {e : Option (Event Line)} (h : Parent p)
    (hs : own shell child (.forked p c waited) .parent ok = some (s, e)) :
    p.status = .running ∧ ∃ p', Parent p' ∧ (s = .forked p' c waited ∧
        p'.status = .running ∧ e ≠ some .exited ∨
      s = .forked p' (c.orphan shell) waited ∧ p'.status = .exited ∧ e = some .exited) := by
  obtain ⟨hready, hs⟩ := Option.ite_none_right_eq_some.1 hs
  refine ⟨hready.1, ?_⟩
  rcases h.todo with htodo | htodo
  · rw [htodo] at hs
    cases hs
    exact ⟨{ p with todo := [] }, ⟨Or.inr rfl, h.pending, h.caught, h.status⟩,
      Or.inl ⟨rfl, hready.1, nofun⟩⟩
  · rw [htodo] at hs
    cases hs
    exact ⟨p.exit, ⟨Or.inr rfl, h.pending, h.caught, nofun⟩, Or.inr ⟨rfl, rfl, rfl⟩⟩

/-- Nothing happens when SIGCHLD is delivered to the parent. -/
theorem Parent.deliver {t : Sig} {orphaned : Bool} {p' : Process Line} {e : Option (Event Line)}
    (h : Parent p) (hd : p.deliver t orphaned = some (p', e)) :
    Parent p' ∧ p'.status = .running ∧ p.status = .running ∧ e = none := by
  obtain ⟨⟨hrun, hmem, -⟩, hd⟩ := Option.ite_none_right_eq_some.1 hd
  obtain rfl := Finset.mem_singleton.1 (h.pending hmem)
  have hnot : .chld ∉ p.caught := by
    rw [h.caught]
    exact Finset.notMem_empty _
  rw [if_neg hnot] at hd
  cases hd
  refine ⟨⟨h.todo, ?_, h.caught, h.status⟩, hrun, hrun, rfl⟩
  exact (Finset.erase_subset _ _).trans h.pending

/-! ### Every run -/

/-- The parent exits. -/
def exits (a : Label Line) : Bool := a.1.who = .parent ∧ a.2 = some .exited

/-- **What holds in every run** without signals from outside in which no call fails. -/
def Inv (shell : Bool) (as : List (Label Line)) : State Line → Prop
  | .single p => (p = Signals.start main ∨ p = Signals.start [.fork, .sleep]) ∧
      as.filterMap seen = [] ∧ as.any exits = false
  | .forked p c _ => Parent p ∧ Phase shell (p.status = .exited) (as.filterMap seen) c ∧
      as.any exits = decide (p.status = .exited)

theorem filterMap_seen_snoc (as : List (Label Line)) (a : Label Line) :
    (as ++ [a]).filterMap seen = as.filterMap seen ++ (seen a).toList := by
  rw [List.filterMap_append]
  cases h : seen a <;> simp [h]

theorem seen_of_who_ne {a : Label Line} (h : a.1.who = .parent) : seen a = none := by
  obtain ⟨d, e⟩ := a
  cases d with
  | own v ok | deliver v t =>
      obtain rfl := h
      rcases e with _ | ⟨_ | _, _, _⟩ | _ | _ | _ <;> rfl
  | send v t => rfl

theorem eq_of_seen_stopped {a : Label Line} (h : seen a = some .stopped) :
    ∃ t, a = (.deliver .child t, some .stopped) := by
  obtain ⟨d, e⟩ := a
  cases d with
  | own v ok =>
      cases v <;> rcases e with _ | ⟨_ | _, _, _⟩ | _ | _ | _ <;> cases h
  | deliver v t =>
      cases v with
      | parent => cases h
      | child =>
          rcases e with _ | _ | _ | _ | _
          · cases h
          · cases h
          · cases h
          · exact ⟨t, rfl⟩
          · cases h
  | send v t => cases h

/-- A step before the fork. -/
theorem inv_single {as : List (Label Line)} {a : Label Line} (h : Inv shell as (.single p))
    (hs : next shell child (.single p) a.1 = some (s, a.2)) (hsend : ∀ w t, a.1 ≠ .send w t)
    (hok : Succeeds [a]) : Inv shell (as ++ [a]) s := by
  obtain ⟨hp, hnil, hexits⟩ := h
  obtain ⟨d, e⟩ := a
  cases d with
  | send v t => exact absurd rfl (hsend v t)
  | deliver v t =>
      cases v with
      | child => cases hs
      | parent =>
          obtain ⟨⟨q, e'⟩, hq, -⟩ := Option.map_eq_some_iff.1 hs
          obtain ⟨hmem, -⟩ := deliver_eq hq
          rcases hp with rfl | rfl <;> exact absurd hmem (Finset.notMem_empty t)
  | own v ok =>
      cases v with
      | child => cases hs
      | parent =>
          have hseen : (as ++ [((.own .parent ok, e) : Label Line)]).filterMap seen = [] := by
            rw [filterMap_seen_snoc, hnil, seen_of_who_ne rfl]
            rfl
          have hexits' : exits (.own .parent ok, e) = false →
              (as ++ [((.own .parent ok, e) : Label Line)]).any exits = false := by
            intro he
            simp [List.any_append, hexits, he]
          rcases hp with rfl | rfl
          · cases hs
            exact ⟨Or.inr rfl, hseen, hexits' rfl⟩
          · cases ok with
            | false =>
                cases hs
                refine absurd (List.mem_singleton_self _) (hok .fork (by decide) .parent false none)
            | true =>
                cases hs
                refine ⟨⟨Or.inl rfl, Finset.empty_subset _, rfl, nofun⟩, ?_, hexits' rfl⟩
                rw [hseen]
                exact .start _

/-- A step after the fork. -/
theorem inv_forked {as : List (Label Line)} {a : Label Line} (h : Inv shell as (.forked p c waited))
    (hs : next shell child (.forked p c waited) a.1 = some (s, a.2))
    (hsend : ∀ w t, a.1 ≠ .send w t) (hok : Succeeds [a]) :
    Inv shell (as ++ [a]) s ∧
      ∀ t, a = (.deliver .child t, some .stopped) → p.status ≠ .exited := by
  obtain ⟨hparent, hphase, hexits⟩ := h
  -- the parent does not exit
  have hkeep : ∀ {q d : Process Line}, Parent q → (q.status = .exited ↔ p.status = .exited) →
      Phase shell (p.status = .exited) ((as ++ [a]).filterMap seen) d → exits a = false →
      Inv shell (as ++ [a]) (.forked q d waited) := by
    intro q d hq hiff hd ha
    refine ⟨hq, ?_, ?_⟩
    · rwa [decide_eq_decide.2 hiff]
    · rw [decide_eq_decide.2 hiff, ← hexits]
      simp [List.any_append, ha]
  have hunseen : a.1.who = .parent → (as ++ [a]).filterMap seen = as.filterMap seen := by
    intro hwho
    rw [filterMap_seen_snoc, seen_of_who_ne hwho]
    exact List.append_nil _
  obtain ⟨d, e⟩ := a
  cases d with
  | send v t => exact absurd rfl (hsend v t)
  | own v ok =>
      refine ⟨?_, nofun⟩
      cases v with
      | parent =>
          obtain ⟨hrun, p', hparent', hcase⟩ := hparent.own hs
          have hne : p.status ≠ .exited := by
            rw [hrun]
            decide
          rw [decide_eq_false hne] at hphase
          rcases hcase with ⟨rfl, hrun', he⟩ | ⟨rfl, hexited, rfl⟩
          · refine hkeep hparent' (by rw [hrun', hrun]) ?_ (by simp [exits, he])
            rw [hunseen rfl, decide_eq_false hne]
            exact hphase
          · refine ⟨hparent', ?_, ?_⟩
            · rw [hunseen rfl, decide_eq_true hexited]
              exact hphase.orphan
            · rw [List.any_append, decide_eq_true hexited]
              exact Bool.or_true _
      | child =>
          obtain ⟨p', c', rfl, hp', hphase'⟩ := hphase.own hs hok
          rw [← filterMap_seen_snoc] at hphase'
          rcases hp' with rfl | rfl
          · exact hkeep hparent Iff.rfl hphase' rfl
          · exact hkeep hparent.raise (status_raise .chld p).1 hphase' rfl
  | deliver v t =>
      cases v with
      | parent =>
          obtain ⟨⟨q, e'⟩, hq, heq⟩ := Option.map_eq_some_iff.1 hs
          obtain ⟨hparent', hrun', hrun, rfl⟩ := hparent.deliver hq
          cases heq
          refine ⟨?_, nofun⟩
          have hne : q.status ≠ .exited := by
            rw [hrun']
            decide
          rw [if_neg hne]
          refine hkeep hparent' (by rw [hrun', hrun]) ?_ rfl
          rw [hunseen rfl]
          exact hphase
      | child =>
          obtain ⟨⟨q, e'⟩, hq, heq⟩ := Option.map_eq_some_iff.1 hs
          obtain ⟨hphase', hstop⟩ := hphase.deliver hq
          rw [← filterMap_seen_snoc] at hphase'
          cases heq
          refine ⟨?_, ?_⟩
          · show Inv _ _ (.forked (if q.status = .running then p else p.raise .chld) q waited)
            split_ifs
            · exact hkeep hparent Iff.rfl hphase' rfl
            · exact hkeep hparent.raise (status_raise .chld p).1 hphase' rfl
          · rintro u hu
            cases hu
            exact of_decide_eq_false (hstop rfl)

theorem inv {as : List (Label Line)} (h : (system shell ∅ main child).Exec as s)
    (hok : Succeeds as) : Inv shell as s := by
  revert hok
  refine Lts.Exec.invariant (I := fun as s => Succeeds as → Inv shell as s) ?_ ?_ h
  · rintro s rfl -
    exact ⟨Or.inl rfl, rfl, rfl⟩
  · rintro as s a s' - ih ⟨hs, hout⟩ hok
    obtain ⟨hbefore, hlast⟩ := succeeds_append.1 hok
    have hsend : ∀ w t, a.1 ≠ .send w t := fun w t heq => Finset.notMem_empty t (hout w t heq)
    cases s with
    | single p => exact inv_single (ih hbefore) hs hsend hlast
    | forked p c waited => exact (inv_forked (ih hbefore) hs hsend hlast).1

/-! ### The handlers -/

/-- A handler of the child runs. -/
theorem Phase.of_handled {t u : Sig} {orphaned : Bool} (h : Phase shell gone es c)
    (hd : c.deliver t orphaned = some (c', some (.handled u))) :
    shell = true ∧ gone = true ∧ .stopped ∈ es := by
  obtain ⟨hmem, -⟩ := deliver_eq hd
  cases h with
  | start | printed | hup | cont | stopped | ready | last =>
      exact absurd hmem (Finset.notMem_empty t)
  | exited _ _ hpending _ =>
      rw [hpending] at hmem
      exact absurd hmem (Finset.notMem_empty t)
  | sent =>
      -- there is no handler for SIGTSTP
      obtain rfl := Finset.mem_singleton.1 hmem
      cases orphaned <;> cases hd
  | woken hshell => exact ⟨hshell, rfl, by decide⟩
  | handled hshell hst => exact ⟨hshell, rfl, by simp⟩

/-- The child is not stopped any more when the parent has exited. -/
theorem not_exited_of_stopped {as xs ys : List (Label Line)} {t : Sig}
    (h : (system shell ∅ main child).Exec as s) (hok : Succeeds as)
    (heq : as = xs ++ (.deliver .child t, some .stopped) :: ys) : xs.any exits = false := by
  have hall := Lts.Exec.forall_splits
    (Q := fun xs a => Succeeds (xs ++ [a]) → a = (.deliver .child t, some .stopped) →
      xs.any exits = false) ?_ h
  · rw [heq, List.append_cons] at hok
    exact hall xs _ ys heq (succeeds_append.1 hok).1 rfl
  · rintro as s a s' hr ⟨hs, -⟩ hok' rfl
    obtain ⟨hbefore, hlast⟩ := succeeds_append.1 hok'
    have hinv := inv hr hbefore
    cases s with
    | single p => cases hs
    | forked p c waited =>
        obtain ⟨-, hstop⟩ := inv_forked hinv hs nofun hlast
        rw [hinv.2.2]
        exact decide_eq_false (hstop t rfl)

/-- A handler has run: the child has been stopped, and the parent has exited. -/
theorem gone_of_handled {as xs ys : List (Label Line)} {w : Who} {t : Sig}
    (h : (system shell ∅ main child).Exec as s) (hok : Succeeds as)
    (heq : as = xs ++ (.deliver w t, some (.handled t)) :: ys) :
    w = .child ∧ shell = true ∧ xs.any exits = true ∧ .stopped ∈ xs.filterMap seen := by
  have hall := Lts.Exec.forall_splits
    (Q := fun xs a => Succeeds (xs ++ [a]) → a = (.deliver w t, some (.handled t)) →
      w = .child ∧ shell = true ∧ xs.any exits = true ∧ .stopped ∈ xs.filterMap seen) ?_ h
  · rw [heq, List.append_cons] at hok
    exact hall xs _ ys heq (succeeds_append.1 hok).1 rfl
  · rintro as s a s' hr ⟨hs, -⟩ hok' rfl
    have hinv := inv hr (succeeds_append.1 hok').1
    cases s with
    | single p =>
        cases w with
        | child => cases hs
        | parent =>
            obtain ⟨⟨q, e'⟩, hq, -⟩ := Option.map_eq_some_iff.1 hs
            obtain ⟨hmem, -⟩ := deliver_eq hq
            rcases hinv.1 with rfl | rfl <;> exact absurd hmem (Finset.notMem_empty t)
    | forked p c waited =>
        obtain ⟨hparent, hphase, hexits⟩ := hinv
        cases w with
        | parent =>
            obtain ⟨⟨q, e'⟩, hq, heq'⟩ := Option.map_eq_some_iff.1 hs
            cases heq'
            obtain ⟨-, -, -, he⟩ := hparent.deliver hq
            cases he
        | child =>
            obtain ⟨⟨q, e'⟩, hq, heq'⟩ := Option.map_eq_some_iff.1 hs
            cases heq'
            obtain ⟨hshell, hgone, hstopped⟩ := hphase.of_handled hq
            exact ⟨rfl, hshell, hexits.trans hgone, hstopped⟩

/-- **A handler only runs after the child has been stopped and then the parent has exited**, and
only in the child of a program that a shell has started. -/
theorem handled_after_exit {as xs ys : List (Label Line)} {w : Who} {t : Sig}
    (h : (system shell ∅ main child).Exec as s) (hok : Succeeds as)
    (heq : as = xs ++ (.deliver w t, some (.handled t)) :: ys) :
    w = .child ∧ shell = true ∧ ∃ us vs a u, xs = us ++ a :: vs ∧ exits a = true ∧
      (.deliver .child u, some .stopped) ∈ us := by
  obtain ⟨hw, hshell, hexits, hstopped⟩ := gone_of_handled h hok heq
  refine ⟨hw, hshell, ?_⟩
  obtain ⟨a, ha, hexit⟩ := List.any_eq_true.1 hexits
  obtain ⟨us, vs, rfl⟩ := List.append_of_mem ha
  obtain ⟨b, hb, hseen⟩ := List.mem_filterMap.1 hstopped
  obtain ⟨u, rfl⟩ := eq_of_seen_stopped hseen
  refine ⟨us, vs, a, u, rfl, hexit, ?_⟩
  rcases List.mem_append.1 hb with hb | hb
  · exact hb
  · exfalso
    rcases List.mem_cons.1 hb with rfl | hb
    · cases hexit
    · -- the child would have been stopped after the parent has exited
      obtain ⟨vs₁, vs₂, rfl⟩ := List.append_of_mem hb
      have hsplit : as = (us ++ a :: vs₁) ++ (.deliver .child u, some .stopped)
          :: (vs₂ ++ (.deliver w t, some (.handled t)) :: ys) := by
        rw [heq]
        simp
      have hbefore := not_exited_of_stopped h hok hsplit
      rw [List.any_append, List.any_cons, hexit] at hbefore
      simp at hbefore

/-! ### The child -/

/-- An instruction has failed. -/
def failed : Label Line → Bool
  | (_, some (.did _ false _)) => true
  | _ => false

theorem succeeds_of_any {as : List (Label Line)} (h : as.any failed = false) : Succeeds as := by
  intro i hi w ok l hmem
  exact List.any_eq_false.1 h _ hmem rfl

/-- Both processes have exited. -/
def finished : State Line → Bool
  | .single _ => false
  | .forked p c _ => p.status = .exited ∧ c.status = .exited

/-- What can be seen of the child in a computed run that is finished. -/
theorem exists_run (cs : List Choice) {es : List Seen}
    (h : (Lts.perform (next shell child) (.single (Signals.start main)) cs).map
      (fun r => (finished r.1, (cs.zip r.2).any failed, (cs.zip r.2).filterMap seen))
        = some (true, false, es)) (hsend : ∀ w t, .send w t ∉ cs) :
    ∃ as s, (system shell ∅ main child).Exec as s ∧ finished s = true ∧ Succeeds as ∧
      es = as.filterMap seen := by
  obtain ⟨⟨s, evs⟩, hperform, hr⟩ := Option.map_eq_some_iff.1 h
  simp only [Prod.mk.injEq] at hr
  obtain ⟨hfinished, hfailed, hseen⟩ := hr
  exact ⟨cs.zip evs, s, exec_of_perform hperform fun w t ht => absurd ht (hsend w t), hfinished,
    succeeds_of_any hfailed, hseen.symm⟩

/-- The parent exits before the child has sent itself the signal. -/
def parentFirst : List Choice :=
  List.replicate 4 (.own .parent true) ++ List.replicate 4 (.own .child true)
    ++ [.deliver .child .tstp] ++ List.replicate 2 (.own .child true)

/-- The child is stopped first; then the handlers run in the order `s`, `t`. -/
def childFirst (s t : Sig) : List Choice :=
  List.replicate 2 (.own .parent true) ++ List.replicate 4 (.own .child true)
    ++ [.deliver .child .tstp, .deliver .parent .chld] ++ List.replicate 2 (.own .parent true)
    ++ [.deliver .child s, .deliver .child t] ++ List.replicate 2 (.own .child true)

/-- **What can be seen of the child in a finished run.** -/
theorem child_traces (shell : Bool) :
    {es | ∃ as s, (system shell ∅ main child).Exec as s ∧ finished s = true ∧ Succeeds as ∧
      es = as.filterMap seen} = traces shell := by
  ext es
  constructor
  · rintro ⟨as, s, h, hfinished, hok, rfl⟩
    have hinv := inv h hok
    cases s with
    | single p => cases hfinished
    | forked p c waited =>
        obtain ⟨-, hphase, -⟩ := hinv
        obtain ⟨-, hexited⟩ := of_decide_eq_true hfinished
        generalize as.filterMap seen = es at hphase ⊢
        generalize decide (p.status = .exited) = gone at hphase
        cases hphase with
        | exited _ hes _ _ => exact hes
        | start | printed | hup | cont | sent | stopped | woken | handled | ready | last =>
            cases hexited
  · rintro (rfl | ⟨rfl, rfl | rfl⟩)
    · exact exists_run parentFirst (by cases shell <;> decide) (by simp [parentFirst])
    · exact exists_run (childFirst .hup .cont) (by decide) (by simp [childFirst])
    · exact exists_run (childFirst .cont .hup) (by decide) (by simp [childFirst])

/-- **The child is never left stopped**: every run is bounded, and it can be continued until parent
and child have exited unless a stop signal is sent from outside.  Even then, if it is not SIGSTOP,
the child is not stopped when the parent has exited, nor without a shell. -/
theorem child_finishes {outside : Finset Sig} {as : List (Label Line)}
    (h : (system shell outside main child).Exec as s) :
    as.length ≤ 40 + (as.map grant).sum ∧
      ((∀ t ∈ Sig.stops, t ∉ outside) →
        ∃ bs s', (system shell outside main child).Run s bs s' ∧ AllExited s') ∧
      (.stop ∉ outside → ∀ p c waited, s = .forked p c waited →
        p.status = .exited ∨ shell = false → c.status ≠ .stopped) := by
  have hleft : .stop ∉ outside → ∀ as s, (system shell outside main child).Exec as s →
      ∀ p c waited, s = .forked p c waited → p.status = .exited ∨ shell = false →
        c.status ≠ .stopped := by
    rintro hstop as s hr p c waited rfl hcase
    rcases attended hstop (by decide) hr with ⟨hshell, hp⟩ | hc
    · rcases hcase with hexited | hnot
      · exact absurd hexited hp
      · cases hshell.symm.trans hnot
    · exact hc
  refine ⟨?_, fun hout => ?_, fun hstop => hleft hstop as s h⟩
  · have hlength := length_le h
    have hrank : (start main).rank (cost child) = 40 := by decide
    omega
  · refine exists_run_exited (by decide) (by decide) (fun as s hr => ?_) h
    have hparent := not_stopped (w := .parent) hout (by decide) hr
    cases s with
    | single p => exact hparent p rfl
    | forked p c waited =>
        refine ⟨hparent p rfl, ?_⟩
        rintro (hexited | ⟨k, htodo⟩)
        · exact hleft (hout .stop (by decide)) as _ hr p c waited rfl (Or.inl hexited)
        · -- the parent does not wait
          have hsuffix := todo_suffix (w := .parent) hr rfl
          rw [htodo] at hsuffix
          have hmem : .wait ∈ main := hsuffix.subset List.mem_cons_self
          exact absurd hmem (by decide)

/-- What is seen when the child is stopped and SIGHUP is delivered first. -/
def events : List (Option (Event Line)) :=
  [some (.did (.print (.ids .parent)) true (some (.ids .parent))), some (.did .fork true none),
    some (.did (.print (.ids .child)) true (some (.ids .child))),
    some (.did (.signal .hup) true none), some (.did (.signal .cont) true none),
    some (.did (.kill .tstp) true none), some .stopped, none, some (.did .sleep true none),
    some .exited, some (.handled .hup), some (.handled .cont),
    some (.did (.print (.ids .child)) true (some (.ids .child))), some .exited]

/-- The child has been stopped, and the parent has exited. -/
theorem child_finishes_woken : ∃ as p c, (system true ∅ main child).Exec as (.forked p c false) ∧
    (.deliver .child .tstp, some .stopped) ∈ as ∧ p.status = .exited ∧ c.status ≠ .stopped ∧
      ∃ bs s, (system true ∅ main child).Run (.forked p c false) bs s ∧ AllExited s := by
  have h : (system true ∅ main child).Exec (((childFirst .hup .cont).take 10).zip (events.take 10))
      (.forked ⟨[], ∅, ∅, ∅, ∅, ∅, .exited⟩ (childAt 4 {.cont, .hup} {.cont, .hup}) false) :=
    exec_of_perform rfl fun w t ht => by simp [childFirst] at ht
  obtain ⟨-, hrun, hleft⟩ := child_finishes h
  refine ⟨_, _, _, h, by decide, rfl, ?_, hrun fun t _ => Finset.notMem_empty t⟩
  exact hleft (Finset.notMem_empty _) _ _ _ rfl (Or.inl rfl)

theorem handled_after_exit_events : ∃ as s, (system true ∅ main child).Exec as s ∧
    ∃ us vs a u, as.take 10 = us ++ a :: vs ∧ exits a = true ∧
      (.deliver .child u, some .stopped) ∈ us := by
  have h : (Lts.perform (next true child) (.single (Signals.start main))
      (childFirst .hup .cont)).map (fun r => r.2) = some events := by decide
  obtain ⟨⟨s, es⟩, hperform, rfl⟩ := Option.map_eq_some_iff.1 h
  have hexec : (system true ∅ main child).Exec ((childFirst .hup .cont).zip events) s :=
    exec_of_perform hperform fun w t ht => by simp [childFirst] at ht
  have hsplit : (childFirst .hup .cont).zip events = ((childFirst .hup .cont).zip events).take 10
      ++ (.deliver .child .hup, some (.handled .hup))
        :: ((childFirst .hup .cont).zip events).drop 11 := rfl
  obtain ⟨-, -, hexit⟩ := handled_after_exit hexec (succeeds_of_any (by decide)) hsplit
  exact ⟨_, s, hexec, hexit⟩

end SighupSigcont
