/-
**A blocked SIGCHLD: `assignment_9/sigchld_block_wait.c`.**

The parent sets a handler for SIGCHLD, blocks the signal and forks a child that exits.  It sleeps,
asks whether SIGCHLD is pending, and waits for the child.  The failure of `sigprocmask` does not end
the program; then the handler runs.  Whether the signal is found pending depends on whether the
child has exited by then.

Main definitions:

* `SigchldBlockWait.main` — the program;
* `SigchldBlockWait.early` — has the child exited before the parent asks?
* `SigchldBlockWait.Signalled`, `SigchldBlockWait.Stage` — what holds after the fork.

Main results:

* `SigchldBlockWait.handler_blocked` — **the handler never runs once the signal is blocked**;
* `SigchldBlockWait.run_completed` — **every run can be completed**, and what has then been printed.
-/

import AupPrograms.SignalFlow
import AupPrograms.SignalRuns
import Mathlib.Tactic.IntervalCases

set_option relaxedAutoImplicit false
set_option autoImplicit false

namespace SigchldBlockWait

open Signals

/-! ### The program -/

/-- The lines of the program. -/
inductive Line
  /-- "Parent sleeping for 5 secs" -/
  | sleeping
  /-- "SIGCHLD pending" -/
  | pending
  /-- "Wait returned" -/
  | waitReturned
  deriving DecidableEq

/-- What the parent does after the fork. -/
def rest : List (Instr Line) :=
  [.print .sleeping, .sleep, .sigpending, .ifPending .chld .pending none, .wait,
    .print .waitReturned]

def main : List (Instr Line) :=
  [.signal .chld, .sigemptyset, .sigaddset .chld, .sigprocmask, .fork] ++ rest

/-- `exit(0)` -/
def child : List (Instr Line) := []

/-- After a call of `sigprocmask` that has returned `r`, SIGCHLD is blocked or not, and caught. -/
def place (r : Bool) : Who → Known → Prop
  | .parent, K => K.masks = [] → K.blocked = (if r then {.chld} else ∅) ∧ K.caught = {.chld}
  | .child, K => K.blocked = (if r then {.chld} else ∅)

instance (r : Bool) : ∀ w, DecidablePred (place r w)
  | .parent => fun K =>
      inferInstanceAs (Decidable (K.masks = [] → _ ∧ _))
  | .child => fun _ => inferInstanceAs (Decidable (_ = _))

/-- The program has been checked, for both results of `sigprocmask`. -/
def outline (r : Bool) : Outline main child where
  place := place r
  instr
    | .parent => fun i K => i = .fork → place r .child K
    | .child => fun _ _ => True
  texts _ := texts main (.start [r]) ++ texts child (.start [r])
  masks
    | .parent => [r]
    | .child => []
  checks_main := by
    have hall : Checks (place r .parent) (fun i K => i = .fork → place r .child K) main
        (.start [r]) := by
      cases r <;> decide
    exact hall
  texts_main _ hxs := List.mem_append_left _ hxs
  checks_child K h := ⟨h rfl, fun _ hxs => List.mem_append_right _ hxs⟩

variable {shell : Bool} {outside : Finset Sig} {as : List (Label Line)} {s : State Line}

/-- `sigprocmask` is called once. -/
theorem masked_prefix (h : (system shell outside main child).Exec as s) {r : Bool}
    (hr : r ∈ masked .parent as ∨ masked .parent as = []) :
    ∀ w, masked w as <+: (outline r).masks w := by
  have hlength := length_masked_le h
  intro w
  cases w with
  | parent =>
      rcases hr with hr | hnil
      · obtain ⟨x, hx⟩ := List.length_eq_one_iff.1
          (Nat.le_antisymm (hlength .parent) (List.length_pos_of_mem hr))
        rw [hx] at hr
        rw [hx, List.mem_singleton.1 hr]
        exact List.prefix_rfl
      · rw [hnil]
        exact List.nil_prefix
  | child =>
      rw [List.eq_nil_of_length_eq_zero (Nat.le_zero.1 (hlength .child))]
      exact List.nil_prefix

/-- **The handler never runs once `sigprocmask` has succeeded**, neither for the exit of the child
nor for a signal that is sent, and neither in the parent nor in the child. -/
theorem handler_blocked (h : (system shell outside main child).Exec as s)
    {xs ys : List (Label Line)} {ok : Bool} {l : Option Line}
    (heq : as = xs ++ (.own .parent ok, some (.did .sigprocmask true l)) :: ys) (w : Who) :
    ¬ Handled w ys .chld := by
  intro hhandled
  obtain ⟨zs, zs', rfl⟩ := List.append_of_mem hhandled
  have hmem : true ∈ masked .parent (xs ++ (.own .parent ok, some (.did .sigprocmask true l)) ::
      zs) := by
    simp [masked, mask]
  have hmask := masked_prefix h (r := true) (Or.inl (by
    rw [heq]
    simp [masked, mask]))
  rw [← List.cons_append, ← List.append_assoc] at heq
  obtain ⟨K, hplace, hmasks, -, hblocked, -⟩ := (outline true).known_of_handled h hmask heq
  refine hblocked ?_
  cases w with
  | child =>
      have hK : K.blocked = {.chld} := hplace
      rw [hK]
      exact Finset.mem_singleton_self _
  | parent =>
      have hnil : K.masks = [] := by
        have hlength := congrArg List.length hmasks
        have hpos := List.length_pos_of_mem hmem
        have hone : ((outline true).masks .parent).length = 1 := rfl
        rw [List.length_append] at hlength
        exact List.eq_nil_of_length_eq_zero (by omega)
      have hK := (hplace hnil).1
      rw [hK]
      exact Finset.mem_singleton_self _

/-! ### What has happened -/

/-- The parent asks for the pending signals. -/
def asks : Label Line → Bool
  | (.own .parent _, some (.did .sigpending _ _)) => true
  | _ => false

/-- The child exits. -/
def exits (a : Label Line) : Bool := a.1.who = .child ∧ a.2 = some .exited

/-- Has the child exited before the parent asks? -/
def early (as : List (Label Line)) : Bool := (as.takeWhile fun a => !asks a).any exits

theorem takeWhile_of_asked {as : List (Label Line)} (bs : List (Label Line))
    (h : as.any asks = true) :
    (as ++ bs).takeWhile (fun a => !asks a) = as.takeWhile fun a => !asks a := by
  induction as with
  | nil => cases h
  | cons a as ih =>
      cases ha : asks a with
      | true => simp [ha]
      | false =>
          have has : as.any asks = true := by simpa [ha] using h
          simp [ha, ih has]

theorem early_of_asked {as : List (Label Line)} (bs : List (Label Line))
    (h : as.any asks = true) : early (as ++ bs) = early as := by
  rw [early, takeWhile_of_asked bs h]
  rfl

theorem early_of_asks {as : List (Label Line)} {a : Label Line} (h : as.any asks = false)
    (ha : asks a = true) : early (as ++ [a]) = as.any exits := by
  have hall : ∀ b ∈ as, (!asks b) = true := by
    intro b hb
    have hnot := List.any_eq_false.1 h b hb
    simpa using hnot
  rw [early, List.takeWhile_append_of_pos hall, List.takeWhile_cons_of_neg (by simp [ha]),
    List.append_nil]

theorem handled_snoc {w : Who} {as : List (Label Line)} {a : Label Line} {t : Sig} :
    Handled w (as ++ [a]) t ↔ Handled w as t ∨ a = (.deliver w t, some (.handled t)) := by
  simp only [Handled, List.mem_append, List.mem_singleton, eq_comm]

/-! ### After the fork -/

/-- **The signal**: it is pending or has been handled when the child has exited. -/
structure Signalled (r : Bool) (as : List (Label Line)) (p c : Process Line) (waited : Bool) :
    Prop where
  pending : p.pending ⊆ {.chld}
  status : p.status ≠ .stopped
  child_todo : c.todo = []
  child_pending : c.pending = ∅
  child_status : c.status ≠ .stopped
  gone : as.any exits = decide (c.status = .exited)
  came : p.status = .running →
    (c.status = .exited ↔ .chld ∈ p.pending ∨ Handled .parent as .chld)
  handled : Handled .parent as .chld → r = false
  waited : waited = true → c.status = .exited
  done : p.status = .exited → p.todo = [] ∧ (r = false → Handled .parent as .chld)

/-- What the parent has printed after `n` instructions. -/
def said (r : Bool) (as : List (Label Line)) (n : ℕ) : List Line :=
  (if 1 ≤ n then [.sleeping] else []) ++ (if 4 ≤ n ∧ r ∧ early as then [.pending] else [])
    ++ if 6 ≤ n then [.waitReturned] else []

/-- **Where the parent is**, after `n` instructions. -/
structure Stage (r : Bool) (as : List (Label Line)) (p : Process Line) (waited : Bool) (n : ℕ) :
    Prop where
  le : n ≤ 6
  todo : p.todo = rest.drop n
  waited : waited = decide (5 ≤ n)
  asked : as.any asks = decide (3 ≤ n)
  shown : 3 ≤ n → (.chld ∈ p.sigset_pending ↔ r = true ∧ early as = true)
  printed : printed .parent as = said r as n

variable {r waited : Bool} {p p' c c' : Process Line} {n : ℕ} {a : Label Line}

/-- The other process makes a step, or a signal comes. -/
theorem Stage.snoc (h : Stage r as p waited n) (htodo : p'.todo = p.todo)
    (hshown : p'.sigset_pending = p.sigset_pending) (hasks : asks a = false)
    (hline : line .parent a = []) : Stage r (as ++ [a]) p' waited n := by
  have hearly : 3 ≤ n → early (as ++ [a]) = early as := by
    intro hn
    refine early_of_asked [a] ?_
    rw [h.asked]
    exact decide_eq_true hn
  refine ⟨h.le, htodo.trans h.todo, h.waited, ?_, ?_, ?_⟩
  · rw [List.any_append, List.any_cons, hasks, h.asked]
    simp
  · intro hn
    rw [hshown, hearly hn]
    exact h.shown hn
  · rw [printed_snoc, hline, List.append_nil, h.printed, said, said]
    by_cases hn : 4 ≤ n
    · rw [hearly (by omega)]
    · simp [hn]

/-- What the instruction after the first `n` prints. -/
def linesAt (r : Bool) (as : List (Label Line)) : ℕ → List Line
  | 0 => [.sleeping]
  | 3 => if r ∧ early as then [.pending] else []
  | 5 => [.waitReturned]
  | _ => []

/-- The parent goes on. -/
theorem Stage.next {waited' : Bool} (h : Stage r as p waited n) (hn : n < 6)
    (htodo : p'.todo = rest.drop (n + 1)) (hwaited : waited' = decide (5 ≤ n + 1))
    (hasks : asks a = decide (n = 2))
    (hshown : if n = 2 then (.chld ∈ p'.sigset_pending ↔ r = true ∧ as.any exits = true)
      else p'.sigset_pending = p.sigset_pending)
    (hline : line .parent a = linesAt r as n) : Stage r (as ++ [a]) p' waited' (n + 1) := by
  have hearly : 3 ≤ n → early (as ++ [a]) = early as := by
    intro hn
    refine early_of_asked [a] ?_
    rw [h.asked]
    exact decide_eq_true hn
  refine ⟨hn, htodo, hwaited, ?_, ?_, ?_⟩
  · rw [List.any_append, List.any_cons, hasks, h.asked]
    simp only [List.any_nil, Bool.or_false, ← Bool.decide_or]
    exact decide_eq_decide.2 (by omega)
  · intro hn
    by_cases htwo : n = 2
    · rw [if_pos htwo] at hshown
      have hearly' : early (as ++ [a]) = as.any exits := by
        refine early_of_asks ?_ (by rw [hasks]; exact decide_eq_true htwo)
        rw [h.asked]
        exact decide_eq_false (by omega)
      rw [hearly']
      exact hshown
    · rw [if_neg htwo] at hshown
      rw [hshown, hearly (by omega)]
      exact h.shown (by omega)
  · rw [printed_snoc, hline, h.printed]
    clear hasks hshown hwaited htodo
    by_cases hthree : 3 ≤ n
    · rw [said, said, hearly hthree]
      interval_cases n <;> simp [linesAt]
    · interval_cases n <;> simp [said, linesAt]

/-- The parent makes a step that sends no signal. -/
theorem Signalled.own (h : Signalled r as p c waited) {ok ok' : Bool} {i : Instr Line}
    {l : Option Line} {waited' : Bool} (hpending : p'.pending = p.pending)
    (hstatus : p'.status = p.status) (hrun : p.status = .running)
    (hwaited : waited' = true → c.status = .exited) :
    Signalled r (as ++ [(.own .parent ok, some (.did i ok' l))]) p' c waited' := by
  have hne : ∀ t, Handled .parent (as ++ [((.own .parent ok, some (.did i ok' l)) : Label Line)]) t
      ↔ Handled .parent as t := by
    intro t
    rw [handled_snoc]
    simp
  have hrun' : p'.status = .running := hstatus.trans hrun
  constructor
  · rw [hpending]
    exact h.pending
  · rw [hrun']
    decide
  · exact h.child_todo
  · exact h.child_pending
  · exact h.child_status
  · rw [List.any_append, ← h.gone]
    simp [exits, Choice.who]
  · intro _
    rw [hpending, hne]
    exact h.came hrun
  · rw [hne]
    exact h.handled
  · exact hwaited
  · intro hexited
    cases hrun'.symm.trans hexited

/-- The parent exits after it has waited. -/
theorem Signalled.exit (h : Signalled r as p c true) {ok : Bool} (hready : p.Ready)
    (hblocked : p.blocked = if r then {.chld} else ∅) :
    Signalled r (as ++ [(.own .parent ok, some .exited)]) p.exit c true := by
  have hne : ∀ t, Handled .parent (as ++ [((.own .parent ok, some .exited) : Label Line)]) t
      ↔ Handled .parent as t := by
    intro t
    rw [handled_snoc]
    simp
  refine { h with status := nofun, gone := ?_, came := nofun, handled := ?_, done := ?_ }
  · rw [List.any_append, ← h.gone]
    simp [exits, Choice.who]
  · rw [hne]
    exact h.handled
  · intro _
    refine ⟨rfl, ?_⟩
    rintro rfl
    rw [hne]
    refine ((h.came hready.1).1 (h.waited rfl)).resolve_left fun hmem => ?_
    -- the signal would have been delivered before
    have hmem' := hready.2 hmem
    rw [hblocked] at hmem'
    exact absurd hmem' (Finset.notMem_empty _)

/-- The child exits. -/
theorem Signalled.reported (h : Signalled r as p c waited) {ok : Bool} :
    Signalled r (as ++ [(.own .child ok, some .exited)]) (p.raise .chld) c.exit waited := by
  have hne : ∀ t, Handled .parent (as ++ [((.own .child ok, some .exited) : Label Line)]) t
      ↔ Handled .parent as t := by
    intro t
    rw [handled_snoc]
    simp
  constructor
  · intro t ht
    rcases of_mem_pending_raise ht with rfl | ht
    · exact Finset.mem_singleton_self _
    · exact h.pending ht
  · exact fun hstopped => h.status ((status_raise .chld p).2 hstopped)
  · rfl
  · exact h.child_pending
  · exact nofun
  · rw [List.any_append]
    exact (Bool.or_true _).trans rfl
  · intro hrun
    refine iff_of_true rfl (Or.inl (self_mem_pending_raise fun hexited => ?_))
    rw [(status_raise .chld p).1.2 hexited] at hrun
    cases hrun
  · rw [hne]
    exact h.handled
  · exact fun _ => rfl
  · intro hexited
    rw [todo_raise, hne]
    exact h.done ((status_raise .chld p).1.1 hexited)

/-- The handler runs. -/
theorem Signalled.deliver (h : Signalled false as p c waited) (hrun : p.status = .running)
    (hpending : .chld ∈ p.pending) :
    Signalled false (as ++ [(.deliver .parent .chld, some (.handled .chld))])
      { p with pending := p.pending.erase .chld } c waited := by
  have hhandled : Handled .parent (as ++ [((.deliver .parent .chld, some (.handled .chld)) :
      Label Line)]) .chld := List.mem_append_right _ (List.mem_singleton_self _)
  refine { h with pending := ?_, gone := ?_, came := ?_, handled := fun _ => rfl, done := ?_ }
  · exact (Finset.erase_subset _ _).trans h.pending
  · rw [List.any_append, ← h.gone]
    simp [exits, Choice.who]
  · intro _
    exact iff_of_true ((h.came hrun).2 (Or.inl hpending)) (Or.inr hhandled)
  · intro hexited
    cases hrun.symm.trans hexited

/-- The calls whose failure ends the program, but for `wait`. -/
def calls : List (Instr Line) := [.signal .chld, .sigemptyset, .sigaddset .chld, .fork, .sigpending]

/-- None of these calls has failed. -/
def Succeeds (as : List (Label Line)) : Prop :=
  ∀ i ∈ calls, ∀ ok l, (.own .parent ok, some (.did i false l)) ∉ as

/-- What is ahead of the parent when it has executed `n` instructions after the fork. -/
inductive Ahead : ℕ → Prop
  | sleeping : Ahead 0
  | sleep : Ahead 1
  | sigpending : Ahead 2
  | pending : Ahead 3
  | wait : Ahead 4
  | waitReturned : Ahead 5
  | exit : Ahead 6

theorem ahead_of_le (h : n ≤ 6) : Ahead n := by
  interval_cases n
  exacts [.sleeping, .sleep, .sigpending, .pending, .wait, .waitReturned, .exit]

/-- A step of the parent after the fork. -/
theorem forked_parent {ok : Bool} {e : Option (Event Line)} (hsig : Signalled r as p c waited)
    (hstage : Stage r as p waited n) (hblocked : p.blocked = if r then {.chld} else ∅)
    (h : own shell child (.forked p c waited) .parent ok = some (s, e))
    (hok : Succeeds [(.own .parent ok, e)]) :
    ∃ p' waited' n', s = .forked p' c waited' ∧
      Signalled r (as ++ [(.own .parent ok, e)]) p' c waited' ∧
        Stage r (as ++ [(.own .parent ok, e)]) p' waited' n' := by
  obtain ⟨hready, h⟩ := Option.ite_none_right_eq_some.1 h
  have htodo := hstage.todo
  have hwaited := hstage.waited
  cases ahead_of_le hstage.le with
  | sleeping =>
      rw [htodo] at h
      cases h
      exact ⟨_, _, 1, rfl, hsig.own rfl rfl hready.1 hsig.waited,
        hstage.next (by decide) rfl hwaited rfl rfl rfl⟩
  | sleep =>
      rw [htodo] at h
      cases h
      exact ⟨_, _, 2, rfl, hsig.own rfl rfl hready.1 hsig.waited,
        hstage.next (by decide) rfl hwaited rfl rfl rfl⟩
  | sigpending =>
      rw [htodo] at h
      cases ok with
      | false =>
          cases h
          exact absurd (List.mem_singleton_self _) (hok .sigpending (by decide) false none)
      | true =>
          cases h
          refine ⟨_, _, 3, rfl, hsig.own rfl rfl hready.1 hsig.waited,
            hstage.next (by decide) rfl hwaited rfl ?_ rfl⟩
          show .chld ∈ p.pending ∩ p.blocked ↔ r = true ∧ as.any exits = true
          rw [Finset.mem_inter, hblocked, hsig.gone, decide_eq_true_eq, hsig.came hready.1]
          cases r with
          | true =>
              have hnot : ¬ Handled .parent as .chld :=
                fun hh => Bool.noConfusion (hsig.handled hh)
              simp [hnot]
          | false => simp
  | pending =>
      rw [htodo] at h
      cases h
      refine ⟨_, _, 4, rfl, hsig.own rfl rfl hready.1 hsig.waited,
        hstage.next (by decide) rfl hwaited rfl rfl ?_⟩
      show (if .chld ∈ p.sigset_pending then some Line.pending else none).toList = linesAt r as 3
      simp only [hstage.shown (by decide), linesAt]
      split_ifs <;> rfl
  | wait =>
      rw [htodo] at h
      obtain ⟨hexited, h⟩ := Option.ite_none_right_eq_some.1 h
      obtain rfl : waited = false := hwaited
      cases h
      exact ⟨_, _, 5, rfl, hsig.own rfl rfl hready.1 fun _ => hexited,
        hstage.next (by decide) rfl rfl rfl rfl rfl⟩
  | waitReturned =>
      rw [htodo] at h
      cases h
      exact ⟨_, _, 6, rfl, hsig.own rfl rfl hready.1 hsig.waited,
        hstage.next (by decide) rfl hwaited rfl rfl rfl⟩
  | exit =>
      rw [htodo] at h
      cases h
      rw [orphan_of_ne hsig.child_status]
      obtain rfl : waited = true := hwaited
      exact ⟨_, _, 6, rfl, hsig.exit hready hblocked, hstage.snoc htodo.symm rfl rfl rfl⟩

/-- **A step after the fork.** -/
theorem forked_next (hsig : Signalled r as p c waited) (hstage : Stage r as p waited n)
    (hblocked : p.blocked = if r then {.chld} else ∅) (hcaught : p.caught = {.chld})
    (h : next shell child (.forked p c waited) a.1 = some (s, a.2))
    (hsend : ∀ w t, a.1 ≠ .send w t) (hok : Succeeds [a]) :
    ∃ p' c' waited' n', s = .forked p' c' waited' ∧
      Signalled r (as ++ [a]) p' c' waited' ∧ Stage r (as ++ [a]) p' waited' n' := by
  obtain ⟨d, e⟩ := a
  cases d with
  | own v ok =>
      cases v with
      | parent =>
          obtain ⟨p', waited', n', hs, hsig', hstage'⟩ := forked_parent hsig hstage hblocked h hok
          exact ⟨p', c, waited', n', hs, hsig', hstage'⟩
      | child =>
          obtain ⟨-, h⟩ := Option.ite_none_right_eq_some.1 h
          rw [hsig.child_todo] at h
          cases h
          refine ⟨_, _, waited, n, rfl, hsig.reported, hstage.snoc (todo_raise _ _) ?_ rfl rfl⟩
          rw [raise_eq]
  | deliver v t =>
      cases v with
      | parent =>
          obtain ⟨⟨q, e'⟩, hq, heq⟩ := Option.map_eq_some_iff.1 h
          obtain ⟨⟨hrun, hmem, hnot⟩, hq⟩ := Option.ite_none_right_eq_some.1 hq
          obtain rfl := Finset.mem_singleton.1 (hsig.pending hmem)
          rw [hblocked] at hnot
          cases r with
          | true => exact absurd (Finset.mem_singleton_self _) hnot
          | false =>
              rw [if_pos (hcaught ▸ Finset.mem_singleton_self _)] at hq
              cases hq
              cases heq
              have hne : p.status ≠ .exited := by
                rw [hrun]
                decide
              refine ⟨_, c, waited, n, ?_, hsig.deliver hrun hmem, hstage.snoc rfl rfl rfl rfl⟩
              rw [if_neg hne]
      | child =>
          -- nothing is pending in the child
          obtain ⟨⟨q, e'⟩, hq, heq⟩ := Option.map_eq_some_iff.1 h
          obtain ⟨hmem, -⟩ := deliver_eq hq
          rw [hsig.child_pending] at hmem
          exact absurd hmem (Finset.notMem_empty t)
  | send v t => exact absurd rfl (hsend v t)

/-! ### Every run -/

/-- After its call of `sigprocmask` the parent blocks SIGCHLD, or it does not. -/
theorem blocked_of (h : (system shell outside main child).Exec as s)
    (hr : masked .parent as = [r]) (hp : s.proc .parent = some p) :
    p.blocked = (if r then {.chld} else ∅) ∧ p.caught = {.chld} := by
  have hmask := masked_prefix h (r := r) (Or.inl (by simp [hr]))
  obtain ⟨K, hplace, hagrees, hmasks⟩ := (outline r).known h hmask hp
  have hnil : K.masks = [] := by
    rw [hr] at hmasks
    exact List.append_cancel_left (hmasks.trans (List.append_nil _).symm)
  obtain ⟨hblocked, hcaught⟩ := hplace hnil
  exact ⟨hagrees.blocked.trans hblocked, hagrees.caught.trans hcaught⟩

/-- The parent before its fork, after `n` instructions. -/
structure Before (as : List (Label Line)) (p : Process Line) (n : ℕ) : Prop where
  le : n ≤ 4
  todo : p.todo = main.drop n
  pending : p.pending = ∅
  status : p.status = .running
  masked : (masked .parent as).length = if n = 4 then 1 else 0
  printed : printed .parent as = []
  asked : as.any asks = false
  gone : as.any exits = false
  handled : ¬ Handled .parent as .chld

/-- What holds in a run without signals from outside in which no call fails. -/
def Inv (as : List (Label Line)) : State Line → Prop
  | .single p => ∃ n, Before as p n
  | .forked p c waited => ∃ r n, masked .parent as = [r] ∧ Signalled r as p c waited ∧
      Stage r as p waited n

/-- The parent goes on before its fork. -/
theorem Before.next (hb : Before as p n) (hn : n < 4) {ok ok' : Bool} {i : Instr Line}
    (htodo : p'.todo = main.drop (n + 1)) (hpending : p'.pending = p.pending)
    (hstatus : p'.status = p.status) (hi : i ≠ .sigpending)
    (hmask : (mask .parent ((.own .parent ok, some (.did i ok' none)) : Label Line)).length
      = if n = 3 then 1 else 0) :
    Before (as ++ [(.own .parent ok, some (.did i ok' none))]) p' (n + 1) := by
  refine ⟨hn, htodo, hpending.trans hb.pending, hstatus.trans hb.status, ?_, ?_, ?_, ?_, ?_⟩
  · rw [masked_snoc, List.length_append, hb.masked, hmask]
    interval_cases n <;> rfl
  · rw [printed_snoc, hb.printed]
    rfl
  · rw [List.any_append, hb.asked]
    cases i with
    | sigpending => exact absurd rfl hi
    | _ => rfl
  · rw [List.any_append, hb.gone]
    simp [exits, Choice.who]
  · rw [handled_snoc]
    simpa using hb.handled

/-- The fork. -/
theorem Before.fork (hb : Before as p 4) {ok : Bool} :
    Inv (as ++ [(.own .parent ok, some (.did .fork true none))])
      (.forked { p with todo := rest } (p.child child) false) := by
  obtain ⟨r, hr⟩ := List.length_eq_one_iff.1 hb.masked
  have hhandled : ¬ Handled .parent
      (as ++ [((.own .parent ok, some (.did .fork true none)) : Label Line)]) .chld := by
    rw [handled_snoc]
    simpa using hb.handled
  have hrun : ∀ x, p.status = x → x = .running := fun x hx => hx.symm.trans hb.status
  refine ⟨r, 0, ?_, ?_, ?_⟩
  · rw [masked_snoc, hr]
    rfl
  · constructor
    · rw [hb.pending]
      exact Finset.empty_subset _
    · exact fun hp => Status.noConfusion (hrun _ hp)
    · rfl
    · rfl
    · exact fun hp => Status.noConfusion (hrun _ hp)
    · rw [List.any_append, hb.gone]
      show _ = decide (p.status = .exited)
      rw [hb.status]
      simp [exits, Choice.who]
    · intro _
      refine iff_of_false (fun hp => Status.noConfusion (hrun _ hp)) ?_
      rintro (hmem | hh)
      · rw [hb.pending] at hmem
        exact absurd hmem (Finset.notMem_empty _)
      · exact hhandled hh
    · exact fun hh => absurd hh hhandled
    · exact fun hw => Bool.noConfusion hw
    · exact fun hp => Status.noConfusion (hrun _ hp)
  · refine ⟨Nat.zero_le _, rfl, rfl, ?_, fun hn => absurd hn (by decide), ?_⟩
    · rw [List.any_append, hb.asked]
      rfl
    · rw [printed_snoc, hb.printed]
      rfl

/-- What is ahead of the parent when it has executed `n` instructions. -/
inductive AheadOfFork : ℕ → Prop
  | signal : AheadOfFork 0
  | sigemptyset : AheadOfFork 1
  | sigaddset : AheadOfFork 2
  | sigprocmask : AheadOfFork 3
  | fork : AheadOfFork 4

theorem aheadOfFork_of_le (h : n ≤ 4) : AheadOfFork n := by
  interval_cases n
  exacts [.signal, .sigemptyset, .sigaddset, .sigprocmask, .fork]

/-- A step before the fork: a call fails, or the parent goes on. -/
theorem before_next (hb : Before as p n) (h : next shell child (.single p) a.1 = some (s, a.2))
    (hsend : ∀ w t, a.1 ≠ .send w t) (hok : Succeeds [a]) : Inv (as ++ [a]) s := by
  obtain ⟨d, e⟩ := a
  cases d with
  | send v t => exact absurd rfl (hsend v t)
  | deliver v t =>
      cases v with
      | child => cases h
      | parent =>
          obtain ⟨⟨q, e'⟩, hq, heq⟩ := Option.map_eq_some_iff.1 h
          obtain ⟨hmem, -⟩ := deliver_eq hq
          rw [hb.pending] at hmem
          exact absurd hmem (Finset.notMem_empty t)
  | own v ok =>
      cases v with
      | child => cases h
      | parent =>
          obtain ⟨hready, h⟩ := Option.ite_none_right_eq_some.1 h
          have htodo := hb.todo
          have hfails : ∀ i ∈ calls, e ≠ some (.did i false none) := by
            rintro i hi rfl
            exact hok i hi ok none (List.mem_singleton_self _)
          cases aheadOfFork_of_le hb.le with
          | signal =>
              rw [htodo] at h
              cases ok with
              | false =>
                  cases h
                  exact absurd rfl (hfails (.signal .chld) (by decide))
              | true =>
                  cases h
                  exact ⟨1, hb.next (by decide) rfl rfl rfl nofun rfl⟩
          | sigemptyset =>
              rw [htodo] at h
              cases ok with
              | false =>
                  cases h
                  exact absurd rfl (hfails .sigemptyset (by decide))
              | true =>
                  cases h
                  exact ⟨2, hb.next (by decide) rfl rfl rfl nofun rfl⟩
          | sigaddset =>
              rw [htodo] at h
              cases ok with
              | false =>
                  cases h
                  exact absurd rfl (hfails (.sigaddset .chld) (by decide))
              | true =>
                  cases h
                  exact ⟨3, hb.next (by decide) rfl rfl rfl nofun rfl⟩
          | sigprocmask =>
              rw [htodo] at h
              cases ok with
              | false =>
                  cases h
                  exact ⟨4, hb.next (by decide) rfl rfl rfl nofun rfl⟩
              | true =>
                  cases h
                  exact ⟨4, hb.next (by decide) rfl rfl rfl nofun rfl⟩
          | fork =>
              rw [htodo] at h
              cases ok with
              | false =>
                  cases h
                  exact absurd rfl (hfails .fork (by decide))
              | true =>
                  cases h
                  exact hb.fork

theorem inv (h : (system shell outside main child).Exec as s)
    (hsend : ∀ w t e, (.send w t, e) ∉ as) (hok : Succeeds as) : Inv as s := by
  revert hsend hok
  refine Lts.Exec.invariant
    (I := fun as s => (∀ w t e, (.send w t, e) ∉ as) → Succeeds as → Inv as s) ?_ ?_ h
  · rintro s rfl - -
    exact ⟨0, ⟨Nat.zero_le _, rfl, rfl, rfl, rfl, rfl, rfl, rfl, nofun⟩⟩
  · rintro as s a s' hr ih ⟨hs, hout⟩ hsends hok
    have hbefore := ih (fun w t e hmem => hsends w t e (List.mem_append_left _ hmem))
      fun i hi ok l hmem => hok i hi ok l (List.mem_append_left _ hmem)
    have hlast : Succeeds [a] := fun i hi ok l hmem => hok i hi ok l (List.mem_append_right _ hmem)
    have hsend : ∀ w t, a.1 ≠ .send w t := by
      intro w t heq
      refine hsends w t a.2 (List.mem_append_right _ (List.mem_singleton.2 ?_))
      rw [← heq]
    cases s with
    | single p =>
        obtain ⟨n, hb⟩ := hbefore
        exact before_next hb hs hsend hlast
    | forked p c waited =>
        obtain ⟨r, n, hmasked, hsig, hstage⟩ := hbefore
        obtain ⟨hblocked, hcaught⟩ := blocked_of hr hmasked rfl
        obtain ⟨p', c', waited', n', rfl, hsig', hstage'⟩ :=
          forked_next hsig hstage hblocked hcaught hs hsend hlast
        refine ⟨r, n', ?_, hsig', hstage'⟩
        -- there is no second call of sigprocmask
        have hone := length_masked_le (hr.trans (Lts.Run.single ⟨hs, hout⟩)) .parent
        rw [masked_snoc, hmasked, List.length_append] at hone
        have hmain : (Who.program main child .parent).countP Instr.isMask = 1 := rfl
        have hnil : mask .parent a = [] := by
          refine List.eq_nil_of_length_eq_zero ?_
          rw [hmain, List.length_singleton] at hone
          omega
        rw [masked_snoc, hnil, hmasked]
        rfl

/-- **Every run is bounded and, unless a stop signal is sent, can be continued until parent and
child have exited.**  If nothing has been sent from outside then and no call has failed, but maybe
`sigprocmask`, the child has been waited for, and the lines have been printed; SIGCHLD has been
found pending if it has been blocked and the child has exited before the parent asked, and the
handler has run if it has not been blocked. -/
theorem run_completed (h : (system shell outside main child).Exec as s) :
    as.length ≤ 52 + (as.map grant).sum ∧
      ((∀ t ∈ Sig.stops, t ∉ outside) →
        ∃ bs s', (system shell outside main child).Run s bs s' ∧ AllExited s') ∧
      ((∀ w t e, (.send w t, e) ∉ as) → AllExited s → Succeeds as →
        ∃ p c r, s = .forked p c true ∧ masked .parent as = [r] ∧
          printed .parent as
            = [.sleeping] ++ (if r ∧ early as then [.pending] else []) ++ [.waitReturned] ∧
          (Handled .parent as .chld ↔ r = false)) := by
  refine ⟨?_, ?_, ?_⟩
  · have hlength := length_le h
    have hrank : (start main).rank (cost child) = 52 := by decide
    omega
  · intro hout
    refine exists_run_exited (by decide) (by decide) (fun as s hr => ?_) h
    exact lively_of_not_stopped fun w => not_stopped hout (by cases w <;> decide) hr
  · intro hsend hexited hok
    have hinv := inv h hsend hok
    cases s with
    | single p =>
        obtain ⟨n, hb⟩ := hinv
        cases hb.status.symm.trans (hexited .parent p rfl)
    | forked p c waited =>
        obtain ⟨r, n, hmasked, hsig, hstage⟩ := hinv
        obtain ⟨hnil, hhandled⟩ := hsig.done (hexited .parent p rfl)
        have hle := hstage.le
        have hn : n = 6 := by
          have hlength := congrArg List.length (hstage.todo.symm.trans hnil)
          rw [List.length_drop, List.length_nil] at hlength
          have hsix : rest.length = 6 := rfl
          omega
        subst hn
        refine ⟨p, c, r, ?_, hmasked, ?_, hsig.handled, hhandled⟩
        · rw [hstage.waited]
          rfl
        · rw [hstage.printed]
          simp [said]

/-- The child exits while the parent sleeps. -/
def choices : List Choice :=
  List.replicate 6 (.own .parent true) ++ [.own .child true]
    ++ List.replicate 6 (.own .parent true)

/-- What is seen of it. -/
def seen : List (Option (Event Line)) :=
  [some (.did (.signal .chld) true none), some (.did .sigemptyset true none),
    some (.did (.sigaddset .chld) true none), some (.did .sigprocmask true none),
    some (.did .fork true none), some (.did (.print .sleeping) true (some .sleeping)),
    some .exited, some (.did .sleep true none), some (.did .sigpending true none),
    some (.did (.ifPending .chld .pending none) true (some .pending)),
    some (.did .wait true none), some (.did (.print .waitReturned) true (some .waitReturned)),
    some .exited]

/-- The two processes at its end. -/
def ends (w : Who) : Process Line :=
  match w with
  | .parent => ⟨[], {.chld}, {.chld}, {.chld}, {.chld}, {.chld}, .exited⟩
  | .child => ⟨[], {.chld}, ∅, {.chld}, ∅, {.chld}, .exited⟩

theorem exec_choices : (system true ∅ main child).Exec (choices.zip seen)
    (.forked (ends .parent) (ends .child) true) :=
  exec_of_perform rfl fun w t h => by simp [choices] at h

theorem run_completed_choices : (∃ as p c, (system true ∅ main child).Exec as (.forked p c true) ∧
    printed .parent as = [.sleeping, .pending, .waitReturned] ∧ ¬ Handled .parent as .chld) ∧
      ∃ bs s, (system true {.usr1} main child).Run (.single (start main)) bs s ∧ AllExited s := by
  refine ⟨?_, (run_completed (Lts.Exec.init rfl)).2.1 (by decide)⟩
  have hsend : ∀ w t e, ((.send w t, e) : Label Line) ∉ choices.zip seen := by
    simp [choices, seen]
  have hexited : AllExited (.forked (ends .parent) (ends .child) true) := by
    rintro (_ | _) p hp <;> cases hp <;> rfl
  have hok : Succeeds (choices.zip seen) := by
    intro i hi ok l hmem
    simp [choices, seen] at hmem
  obtain ⟨-, -, hfinished⟩ := run_completed exec_choices
  obtain ⟨p, c, r, hs, hr, hlines, hhandled⟩ := hfinished hsend hexited hok
  obtain rfl : r = true := by
    have htrue : masked .parent (choices.zip seen) = [true] := by decide
    rw [hr] at htrue
    exact List.singleton_inj.1 htrue
  refine ⟨_, p, c, hs ▸ exec_choices, ?_, fun hh => Bool.noConfusion (hhandled.1 hh)⟩
  rw [hlines, if_pos ⟨rfl, by decide⟩]
  rfl

theorem handler_blocked_choices : (∃ a ∈ choices.zip seen, exits a = true) ∧
    ∀ w, ¬ Handled w ((choices.zip seen).drop 4) .chld := by
  have hsplit : choices.zip seen = (choices.zip seen).take 3
      ++ (.own .parent true, some (.did .sigprocmask true none)) :: (choices.zip seen).drop 4 := rfl
  refine ⟨⟨(.own .child true, some .exited), ?_, rfl⟩, handler_blocked exec_choices hsplit⟩
  simp [choices, seen]

end SigchldBlockWait
