/-
**The runs of a program with signals come to an end.**

Signals from outside may keep a program busy, but each of them only for a few steps.  As long as one
of the two processes runs, a step is possible that no signal from outside is needed for, unless it
waits for the other one.  A stop signal makes a process stop only if it is sent to it; and but for
SIGSTOP, no child is left behind stopped: its parent is still there, or its end has woken the child.

Main definitions:

* `Signals.Process.rank`, `Signals.State.rank` — what pays for the steps;
* `Signals.grant` — what a signal from outside grants;
* `Signals.Unsent` — a signal that has not been sent;
* `Signals.AllExited` — all processes have exited.

Main results:

* `Signals.length_le` — **a run is bounded** by the program and by the signals from outside;
* `Signals.not_stopped` — **a process is never stopped** unless it is sent a stop signal;
* `Signals.attended` — **no child is left behind stopped** unless SIGSTOP is sent;
* `Signals.exists_next` — a run is not stuck unless a process is stopped;
* `Signals.exists_run_exited` — every run can be continued until all processes have exited.
-/

import AupPrograms.Signals
import Mathlib.Algebra.Order.BigOperators.Group.Finset

set_option relaxedAutoImplicit false
set_option autoImplicit false

universe u

namespace Signals

variable {E : Type u}

/-! ### Ranks -/

/-- What a signal costs; a process that is stopped is reported to its parent. -/
def Sig.weight (s : Sig) : ℕ := if s ∈ Sig.stops then 2 else 1

/-- What the pending signals cost. -/
def load (pending : Finset Sig) : ℕ := ∑ s ∈ pending, s.weight

/-- What an instruction of the first process costs: a fork pays for the child. -/
def cost (code : List (Instr E)) : Instr E → ℕ
  | .fork => 4 + 4 * (code.length + 1)
  | _ => 4

def Process.rank (cost : Instr E → ℕ) (p : Process E) : ℕ :=
  if p.status = .exited then 0 else (p.todo.map cost).sum + 4 + load p.pending

def State.rank (code : List (Instr E)) : State E → ℕ
  | .single p => p.rank (cost code)
  | .forked p c _ => p.rank (cost code) + c.rank fun _ => 4

/-- What a signal from outside grants. -/
def grant (a : Label E) : ℕ :=
  match a.1 with
  | .send _ _ => 4
  | _ => 0

theorem Sig.weight_le (s : Sig) : 1 ≤ s.weight ∧ s.weight ≤ 2 := by
  rw [Sig.weight]
  split_ifs <;> decide

theorem load_insert_le (s : Sig) (P : Finset Sig) :
    load (insert s (P \ s.cancels)) ≤ load P + s.weight := by
  have hsub : load (P \ s.cancels) ≤ load P := Finset.sum_le_sum_of_subset Finset.sdiff_subset
  by_cases hmem : s ∈ P \ s.cancels
  · rw [Finset.insert_eq_of_mem hmem]
    omega
  · have hinsert : load (insert s (P \ s.cancels)) = s.weight + load (P \ s.cancels) :=
      Finset.sum_insert hmem
    omega

theorem load_erase {s : Sig} {P : Finset Sig} (h : s ∈ P) :
    load (P.erase s) + s.weight = load P :=
  Finset.sum_erase_add P Sig.weight h

variable {f : Instr E → ℕ} {p q : Process E}

theorem rank_raise_le (s : Sig) (p : Process E) : (p.raise s).rank f ≤ p.rank f + s.weight := by
  by_cases hexited : p.status = .exited
  · rw [Process.raise, if_pos hexited]
    exact Nat.le_add_right _ _
  · have hrank : (p.raise s).rank f
        = (p.todo.map f).sum + 4 + load (insert s (p.pending \ s.cancels)) := by
      rw [Process.raise, if_neg hexited, Process.rank, if_neg]
      show (if s = .cont then Status.running else p.status) ≠ .exited
      split_ifs
      · decide
      · exact hexited
    have hload := load_insert_le s p.pending
    rw [hrank, Process.rank, if_neg hexited]
    omega

/-- The child is reported to its parent. -/
theorem rank_report_le (p : Process E) : (p.raise .chld).rank f ≤ p.rank f + 1 :=
  rank_raise_le .chld p

theorem rank_orphan_le (shell : Bool) (c : Process E) :
    (c.orphan shell).rank f ≤ c.rank f + 2 := by
  rw [Process.orphan]
  split_ifs
  · have hhup : (c.raise .hup).rank f ≤ c.rank f + 1 := rank_raise_le .hup c
    have hcont : ((c.raise .hup).raise .cont).rank f ≤ (c.raise .hup).rank f + 1 :=
      rank_raise_le .cont (c.raise .hup)
    omega
  · omega

theorem rank_exit (p : Process E) : p.exit.rank f = 0 := if_pos rfl

theorem rank_of_ready (h : p.Ready) :
    p.rank f = (p.todo.map f).sum + 4 + load p.pending := by
  rw [Process.rank, if_neg]
  rw [h.1]
  decide

/-- The delivery of a signal. -/
theorem rank_deliver {s : Sig} {orphaned : Bool} {e : Option (Event E)}
    (h : p.deliver s orphaned = some (q, e)) :
    q.rank f + 1 ≤ p.rank f ∧ (q.status ≠ .running → q.rank f + 2 ≤ p.rank f) ∧
      (q.status = .exited → q.rank f + 4 ≤ p.rank f) := by
  obtain ⟨⟨hrun, hpending, -⟩, h⟩ := Option.ite_none_right_eq_some.1 h
  have hexited : p.status ≠ .exited := by
    rw [hrun]
    decide
  have hload := load_erase hpending
  have hweight := (Sig.weight_le s).1
  have hp : p.rank f = (p.todo.map f).sum + 4 + load p.pending := if_neg hexited
  have hgo : ({ p with pending := p.pending.erase s } : Process E).rank f
      = (p.todo.map f).sum + 4 + load (p.pending.erase s) := if_neg hexited
  have hstay : ∀ r : Process E, r = { p with pending := p.pending.erase s } →
      r.rank f + 1 ≤ p.rank f ∧ (r.status ≠ .running → r.rank f + 2 ≤ p.rank f) ∧
        (r.status = .exited → r.rank f + 4 ≤ p.rank f) := by
    rintro r rfl
    refine ⟨by omega, fun hne => absurd hrun hne, fun he => absurd he hexited⟩
  by_cases hcaught : s ∈ p.caught
  · rw [if_pos hcaught] at h
    cases h
    exact hstay _ rfl
  · rw [if_neg hcaught] at h
    cases hdefault : s.default with
    | ignore =>
        rw [hdefault] at h
        cases h
        exact hstay _ rfl
    | terminate =>
        rw [hdefault] at h
        cases h
        rw [rank_exit]
        exact ⟨by omega, fun _ => by omega, fun _ => by omega⟩
    | stop =>
        rw [hdefault] at h
        split_ifs at h
        · cases h
          exact hstay _ rfl
        · -- a stop signal pays for the report, too
          have htwo : s.weight = 2 := if_pos ((Sig.mem_stops s).2 hdefault)
          have hq := (Prod.mk.inj (Option.some_inj.1 h)).1
          have hstatus : q.status = .stopped := by rw [← hq]
          have hrank : q.rank f = (p.todo.map f).sum + 4 + load (p.pending.erase s) := by
            rw [← hq]
            exact if_neg nofun
          refine ⟨by omega, fun _ => by omega, fun he => ?_⟩
          rw [hstatus] at he
          cases he

/-- An instruction pays for itself; one that sends a signal keeps two of it. -/
theorem rank_perform {i : Instr E} {k : List (Instr E)} (ok : Bool) (hready : p.Ready)
    (htodo : p.todo = i :: k) : (p.perform i k ok).1.rank f + f i ≤ p.rank f + 2 := by
  have hp := rank_of_ready (f := f) hready
  have hexited : p.status ≠ .exited := by
    rw [hready.1]
    decide
  rw [htodo, List.map_cons, List.sum_cons] at hp
  have hgo : ∀ r : Process E, r.todo = k → r.status = p.status → r.pending = p.pending →
      r.rank f + f i ≤ p.rank f := by
    intro r hr hstatus hpending
    rw [Process.rank, if_neg (hstatus ▸ hexited), hr, hpending]
    omega
  have hquit : p.quit.rank f + f i ≤ p.rank f := by
    have hrank : p.quit.rank f = 0 + 4 + load p.pending := if_neg hexited
    omega
  have hok : ∀ r : Process E, r.todo = k → r.status = p.status → r.pending = p.pending →
      (if ok then r else p.quit).rank f + f i ≤ p.rank f + 2 := by
    intro r hr hstatus hpending
    cases ok with
    | true => exact (hgo r hr hstatus hpending).trans (Nat.le_add_right _ _)
    | false => exact hquit.trans (Nat.le_add_right _ _)
  cases i with
  | print _ | ifMember _ _ _ | ifPending _ _ _ | sleep =>
      exact (hgo { p with todo := k } rfl rfl rfl).trans (Nat.le_add_right _ _)
  | sigemptyset => exact hok { p with todo := k, sigset := ∅ } rfl rfl rfl
  | sigaddset s => exact hok { p with todo := k, sigset := insert s p.sigset } rfl rfl rfl
  | sigdelset s => exact hok { p with todo := k, sigset := p.sigset.erase s } rfl rfl rfl
  | sigprocmask =>
      refine Nat.le_trans ?_ (Nat.le_add_right _ _)
      cases ok with
      | true => exact hgo { p with todo := k, blocked := p.sigset.erase .stop } rfl rfl rfl
      | false => exact hgo { p with todo := k } rfl rfl rfl
  | signal s =>
      rw [Process.perform]
      split_ifs
      · exact (hgo { p with todo := k, caught := insert s p.caught } rfl rfl rfl).trans
          (Nat.le_add_right _ _)
      · exact hquit.trans (Nat.le_add_right _ _)
  | sigpending =>
      exact hok { p with todo := k, sigset_pending := p.pending ∩ p.blocked } rfl rfl rfl
  | fork | wait => exact hok { p with todo := k } rfl rfl rfl
  | kill s =>
      cases ok with
      | false => exact hquit.trans (Nat.le_add_right _ _)
      | true =>
          have hk := hgo { p with todo := k } rfl rfl rfl
          have hraise := rank_raise_le (f := f) s { p with todo := k }
          have hweight := (Sig.weight_le s).2
          show (Process.raise { p with todo := k } s).rank f + f (.kill s) ≤ _
          omega

theorem four_le_cost (code : List (Instr E)) (i : Instr E) : 4 ≤ cost code i := by
  cases i with
  | fork => exact Nat.le_add_right _ _
  | _ => exact Nat.le_refl _

/-- A step of a process itself. -/
theorem rank_own {w : Who} {ok : Bool} {e : Option (Event E)} (hcost : ∀ i, 4 ≤ f i)
    (h : Changes w p (.own w ok, e) q) : q.rank f + 2 ≤ p.rank f := by
  cases h with
  | @did r i k _ hready htodo =>
      have hle := rank_perform (f := f) r hready htodo
      have hi := hcost i
      omega
  | exit hready htodo =>
      have hp := rank_of_ready (f := f) hready
      rw [rank_exit]
      omega
  | same hne | report hne | orphan hne => exact absurd rfl hne

/-! ### Every run is bounded -/

variable {shell : Bool} {outside : Finset Sig} {main code : List (Instr E)} {s s' : State E}

theorem rank_child (p : Process E) (code : List (Instr E)) (hrun : p.status ≠ .exited) :
    (p.child code).rank (fun _ => 4) = 4 * (code.length + 1) := by
  have hrank : (p.child code).rank (fun _ => 4) = (code.map fun _ => 4).sum + 4 + load ∅ :=
    if_neg hrun
  rw [hrank, List.map_const', List.sum_replicate_nat]
  have hload : load ∅ = 0 := rfl
  omega

/-- **Every step is paid for**, by the rank or by a signal from outside. -/
theorem rank_next {a : Label E} (h : next shell code s a.1 = some (s', a.2)) :
    s'.rank code + 1 ≤ s.rank code + grant a := by
  obtain ⟨c, e⟩ := a
  have hcost := four_le_cost code
  have hfour : ∀ i : Instr E, 4 ≤ (fun _ => 4 : Instr E → ℕ) i := fun _ => Nat.le_refl 4
  cases s with
  | single p =>
      cases c with
      | own v ok =>
          cases v with
          | child => cases h
          | parent =>
              have hown : own shell code (.single p) .parent ok = some (s', e) := h
              rcases own_single hown with ⟨q, rfl, hq⟩ | ⟨k, hready, htodo, rfl, rfl⟩
              · have hle := rank_own hcost hq
                simp only [State.rank, grant]
                omega
              · have hle := rank_perform (f := cost code) true hready htodo
                have hfork : cost code .fork = 4 + 4 * (code.length + 1) := rfl
                have hparent : (p.perform .fork k true).1 = { p with todo := k } := rfl
                have hchild := rank_child p code (by rw [hready.1]; decide)
                rw [hparent] at hle
                simp only [State.rank, grant, hchild]
                omega
      | deliver v t =>
          cases v with
          | child => cases h
          | parent =>
              obtain ⟨⟨q, e'⟩, hq, heq⟩ := Option.map_eq_some_iff.1 h
              cases heq
              have hle := (rank_deliver (f := cost code) hq).1
              simp only [State.rank, grant]
              omega
      | send v t =>
          cases v with
          | child => cases h
          | parent =>
              cases h
              have hle := rank_raise_le (f := cost code) t p
              have hweight := t.weight_le.2
              simp only [State.rank, grant]
              omega
  | forked p c' waited =>
      cases c with
      | own v ok =>
          cases v with
          | parent =>
              have hown : own shell code (.forked p c' waited) .parent ok = some (s', e) := h
              rcases own_parent hown with ⟨q, waited', rfl, hq, -⟩ | ⟨rfl, hready, htodo, rfl⟩
              · have hle := rank_own hcost hq
                simp only [State.rank, grant]
                omega
              · have hp := rank_of_ready (f := cost code) hready
                have hle := rank_orphan_le (f := fun _ => 4) shell c'
                simp only [State.rank, grant, rank_exit]
                omega
          | child =>
              have hown : own shell code (.forked p c' waited) .child ok = some (s', e) := h
              rcases own_child hown with ⟨q, rfl, hq, -⟩ | ⟨rfl, hready, htodo, rfl⟩
              · have hle := rank_own hfour hq
                simp only [State.rank, grant]
                omega
              · have hc := rank_of_ready (f := fun _ => 4) hready
                have hle := rank_report_le (f := cost code) p
                simp only [State.rank, grant, rank_exit]
                omega
      | deliver v t =>
          cases v with
          | parent =>
              obtain ⟨⟨q, e'⟩, hq, heq⟩ := Option.map_eq_some_iff.1 h
              cases heq
              obtain ⟨hone, -, hfour'⟩ := rank_deliver (f := cost code) hq
              have hle := rank_orphan_le (f := fun _ => 4) shell c'
              simp only [State.rank, grant]
              split_ifs with hexited
              · have hexit := hfour' hexited
                omega
              · omega
          | child =>
              obtain ⟨⟨q, e'⟩, hq, heq⟩ := Option.map_eq_some_iff.1 h
              cases heq
              obtain ⟨hone, htwo, -⟩ := rank_deliver (f := fun _ => 4) hq
              have hle := rank_report_le (f := cost code) p
              simp only [State.rank, grant]
              split_ifs with hrun
              · omega
              · have hreport := htwo hrun
                omega
      | send v t =>
          cases v with
          | parent =>
              cases h
              have hle := rank_raise_le (f := cost code) t p
              have hweight := t.weight_le.2
              simp only [State.rank, grant]
              omega
          | child =>
              cases h
              have hle := rank_raise_le (f := fun _ => 4) t c'
              have hweight := t.weight_le.2
              have hreport := rank_report_le (f := cost code) p
              simp only [State.rank, grant]
              split_ifs
              · omega
              · omega

theorem pays (shell : Bool) (outside : Finset Sig) (main code : List (Instr E)) :
    (system shell outside main code).Pays (State.rank code) grant :=
  fun _ _ _ _ _ hs => rank_next hs.1

/-- **A run is bounded** by the program and by the signals from outside. -/
theorem length_le {as : List (Label E)} (h : (system shell outside main code).Exec as s) :
    as.length + s.rank code ≤ (start main).rank (cost code) + (as.map grant).sum :=
  (pays shell outside main code).length_le (fun s hs => by rw [hs]; rfl) h

/-! ### Processes that are stopped -/

theorem status_raise (s : Sig) (p : Process E) :
    ((p.raise s).status = .exited ↔ p.status = .exited) ∧
      ((p.raise s).status = .stopped → p.status = .stopped) := by
  by_cases hexited : p.status = .exited
  · rw [Process.raise, if_pos hexited]
    exact ⟨Iff.rfl, id⟩
  · rw [Process.raise, if_neg hexited]
    show ((if s = .cont then Status.running else p.status) = .exited ↔ _) ∧
      ((if s = .cont then Status.running else p.status) = .stopped → _)
    split_ifs
    · exact ⟨iff_of_false (by decide) hexited, fun h => by cases h⟩
    · exact ⟨Iff.rfl, id⟩

theorem status_perform {i : Instr E} {k : List (Instr E)} (ok : Bool) (hready : p.Ready) :
    (p.perform i k ok).1.status = .running := by
  have hrun := hready.1
  have hok : ∀ r : Process E, r.status = p.status →
      (if ok then r else p.quit).status = .running := by
    intro r hr
    cases ok with
    | true => exact hr.trans hrun
    | false => exact hrun
  cases i with
  | print _ | ifMember _ _ _ | ifPending _ _ _ | sleep => exact hrun
  | sigemptyset => exact hok { p with todo := k, sigset := ∅ } rfl
  | sigaddset s => exact hok { p with todo := k, sigset := insert s p.sigset } rfl
  | sigdelset s => exact hok { p with todo := k, sigset := p.sigset.erase s } rfl
  | sigprocmask =>
      cases ok with
      | true => exact hrun
      | false => exact hrun
  | signal s =>
      rw [Process.perform]
      split_ifs <;> exact hrun
  | sigpending => exact hok { p with todo := k, sigset_pending := p.pending ∩ p.blocked } rfl
  | fork | wait => exact hok { p with todo := k } rfl
  | kill s =>
      cases ok with
      | false => exact hrun
      | true =>
          have hne : p.status ≠ .exited := by
            rw [hrun]
            decide
          show (Process.raise { p with todo := k } s).status = .running
          rw [Process.raise, if_neg hne]
          show (if s = .cont then Status.running else p.status) = .running
          rw [hrun, ite_self]

theorem status_orphan {c : Process E} (h : shell = true ∨ c.status ≠ .stopped) :
    (c.orphan shell).status ≠ .stopped := by
  by_cases hstopped : c.status = .stopped
  · have hshell : shell = true := h.resolve_right fun hne => hne hstopped
    rw [Process.orphan, if_pos ⟨hshell, hstopped⟩]
    intro hcont
    have hhup : (c.raise .hup).status ≠ .exited := by
      rw [Ne, (status_raise .hup c).1, hstopped]
      decide
    rw [Process.raise, if_neg hhup] at hcont
    cases hcont
  · rwa [orphan_of_ne hstopped]

theorem status_deliver {s : Sig} {orphaned : Bool} {e : Option (Event E)}
    (h : p.deliver s orphaned = some (q, e)) (hstopped : q.status = .stopped) :
    s ∈ Sig.stops ∧ s ∈ p.pending ∧ (s ≠ .stop → orphaned = false) := by
  obtain ⟨⟨hrun, hpending, -⟩, h⟩ := Option.ite_none_right_eq_some.1 h
  by_cases hcaught : s ∈ p.caught
  · rw [if_pos hcaught] at h
    cases h
    rw [hrun] at hstopped
    cases hstopped
  · rw [if_neg hcaught] at h
    cases hdefault : s.default with
    | ignore =>
        rw [hdefault] at h
        cases h
        rw [hrun] at hstopped
        cases hstopped
    | terminate =>
        rw [hdefault] at h
        cases h
        cases hstopped
    | stop =>
        rw [hdefault] at h
        split_ifs at h with horphaned
        · cases h
          rw [hrun] at hstopped
          cases hstopped
        · refine ⟨(Sig.mem_stops s).2 hdefault, hpending, fun hne => ?_⟩
          exact Bool.eq_false_iff.2 fun ho => horphaned ⟨ho, hne⟩

/-! ### Signals that are not sent -/

/-- Nobody has sent `t` to the process, and its program does not. -/
structure Unsent (t : Sig) (p : Process E) : Prop where
  todo : .kill t ∉ p.todo
  pending : t ∉ p.pending

theorem Unsent.raise {s t : Sig} (h : Unsent t p) (hne : t ≠ s) : Unsent t (p.raise s) where
  todo := by
    rw [todo_raise]
    exact h.todo
  pending hmem := by
    rcases of_mem_pending_raise hmem with heq | hmem
    · exact hne heq
    · exact h.pending hmem

/-- The signals that can be pending after an instruction. -/
theorem of_mem_pending_perform {i : Instr E} {k : List (Instr E)} {ok : Bool} {t : Sig}
    (h : t ∈ (p.perform i k ok).1.pending) : i = .kill t ∨ t ∈ p.pending := by
  cases i with
  | kill s =>
      cases ok with
      | false => exact Or.inr h
      | true =>
          rcases of_mem_pending_raise h with rfl | h
          · exact Or.inl rfl
          · exact Or.inr h
  | print _ | ifMember _ _ _ | ifPending _ _ _ | sleep => exact Or.inr h
  | signal s =>
      rw [Process.perform] at h
      split_ifs at h <;> exact Or.inr h
  | sigemptyset | sigaddset _ | sigdelset _ | sigprocmask | sigpending | fork | wait =>
      cases ok with
      | true => exact Or.inr h
      | false => exact Or.inr h

/-- A stop signal comes from the program itself or from outside. -/
theorem Unsent.changes {w : Who} {a : Label E} {t : Sig} (ht : t ∈ Sig.stops) (h : Unsent t p)
    (hc : Changes w p a q) (hsend : a.1 ≠ .send w t) : Unsent t q := by
  have hother : ∀ s, s ∉ Sig.stops → t ≠ s := by
    rintro s hs rfl
    exact hs ht
  refine ⟨fun hmem => h.todo ((todo_suffix_of_changes hc).subset hmem), ?_⟩
  cases hc with
  | same _ | exit _ _ => exact h.pending
  | did ok hready hi =>
      intro hmem
      rcases of_mem_pending_perform hmem with rfl | hmem
      · exact h.todo (hi ▸ List.mem_cons_self)
      · exact h.pending hmem
  | deliver hq =>
      obtain ⟨-, -, -, heq, -⟩ := deliver_eq hq
      rw [heq]
      exact fun hmem => h.pending (Finset.mem_of_mem_erase hmem)
  | send s =>
      refine (h.raise ?_).pending
      rintro rfl
      exact hsend rfl
  | report _ _ => exact (h.raise (hother .chld (by decide))).pending
  | orphan _ _ =>
      rw [Process.orphan]
      split_ifs
      · have hhup := h.raise (hother .hup (by decide))
        exact (hhup.raise (hother .cont (by decide))).pending
      · exact h.pending

/-- **A stop signal is not sent** if neither the program nor anyone outside sends it. -/
theorem unsent {as : List (Label E)} {w : Who} {t : Sig} (ht : t ∈ Sig.stops)
    (hout : t ∉ outside) (hprogram : .kill t ∉ w.program main code)
    (h : (system shell outside main code).Exec as s) : ∀ p, s.proc w = some p → Unsent t p := by
  refine proc_invariant (I := fun _ p => Unsent t p) ?_ ?_ ?_ h
  · rintro rfl
    exact ⟨hprogram, Finset.notMem_empty _⟩
  · rintro as s p ok - - rfl -
    exact ⟨hprogram, Finset.notMem_empty _⟩
  · intro as s a p q _ _ hunsent hsend hc
    exact hunsent.changes ht hc fun heq => hout (hsend t heq)

/-! ### Children that are left behind -/

/-- A child that is stopped has a parent, which a shell has started. -/
def Attended (shell : Bool) : State E → Prop
  | .single _ => True
  | .forked p c _ => shell = true ∧ p.status ≠ .exited ∨ c.status ≠ .stopped

/-- SIGSTOP would stop the child also after its parent has exited. -/
theorem attended_next {a : Label E} (h : next shell code s a.1 = some (s', a.2))
    (hunsent : ∀ c, s.proc .child = some c → Unsent .stop c) (hs : Attended shell s) :
    Attended shell s' := by
  obtain ⟨c, e⟩ := a
  cases s with
  | single p =>
      cases hc : s'.proc .child with
      | none =>
          cases s' with
          | single q => trivial
          | forked q d waited => cases hc
      | some d =>
          obtain ⟨p', k, ok, hp, hready, -, rfl, -⟩ := born_of_next h rfl hc
          cases s' with
          | single q => cases hc
          | forked q d waited =>
              cases hc
              refine Or.inr fun hstopped => ?_
              cases hready.1.symm.trans hstopped
  | forked p c' waited =>
      have horphan : (c'.orphan shell).status ≠ .stopped := status_orphan (hs.imp_left And.left)
      cases c with
      | own v ok =>
          cases v with
          | parent =>
              have hown : own shell code (.forked p c' waited) .parent ok = some (s', e) := h
              rcases own_parent hown with ⟨q, waited', rfl, hq, i, r, l, rfl⟩ | ⟨rfl, -, -, -⟩
              · refine hs.imp_left fun hparent => ⟨hparent.1, fun hexited => ?_⟩
                cases hq with
                | did _ hready htodo =>
                    cases (status_perform r hready).symm.trans hexited
                | same hne | report hne | orphan hne => exact absurd rfl hne
              · exact Or.inr horphan
          | child =>
              have hown : own shell code (.forked p c' waited) .child ok = some (s', e) := h
              rcases own_child hown with ⟨q, rfl, hq, i, r, l, rfl⟩ | ⟨rfl, -, -, -⟩
              · refine Or.inr fun hstopped => ?_
                cases hq with
                | did _ hready htodo =>
                    cases (status_perform r hready).symm.trans hstopped
                | same hne | report hne | orphan hne => exact absurd rfl hne
              · exact Or.inr nofun
      | deliver v t =>
          cases v with
          | parent =>
              obtain ⟨⟨q, e'⟩, hq, heq⟩ := Option.map_eq_some_iff.1 h
              cases heq
              show _ ∨ (if q.status = .exited then c'.orphan shell else c').status ≠ .stopped
              split_ifs with hexited
              · exact Or.inr horphan
              · exact hs.imp_left fun hparent => ⟨hparent.1, hexited⟩
          | child =>
              obtain ⟨⟨q, e'⟩, hq, heq⟩ := Option.map_eq_some_iff.1 h
              cases heq
              by_cases hstopped : q.status = .stopped
              · left
                obtain ⟨-, hmem, hparent⟩ := status_deliver hq hstopped
                have hne : t ≠ .stop := by
                  rintro rfl
                  exact (hunsent c' rfl).pending hmem
                -- the process group is not orphaned
                obtain ⟨hshell, hp⟩ : shell = true ∧ p.status ≠ .exited := by
                  simpa using hparent hne
                refine ⟨hshell, ?_⟩
                show (if q.status = .running then p else p.raise .chld).status ≠ .exited
                split_ifs
                · exact hp
                · exact fun hexited => hp ((status_raise .chld p).1.1 hexited)
              · exact Or.inr hstopped
      | send v t =>
          cases v with
          | parent =>
              cases h
              exact hs.imp_left fun hparent =>
                ⟨hparent.1, fun hexited => hparent.2 ((status_raise t p).1.1 hexited)⟩
          | child =>
              cases h
              refine hs.imp ?_ fun hc hstopped => hc ((status_raise t c').2 hstopped)
              rintro ⟨hshell, hp⟩
              refine ⟨hshell, ?_⟩
              split_ifs
              · exact fun hexited => hp ((status_raise .chld p).1.1 hexited)
              · exact hp

/-- **No child is left behind stopped** unless SIGSTOP is sent. -/
theorem attended {as : List (Label E)} (hout : .stop ∉ outside) (hcode : .kill .stop ∉ code)
    (h : (system shell outside main code).Exec as s) : Attended shell s := by
  refine Lts.Exec.invariant (I := fun _ s => Attended shell s) ?_ ?_ h
  · rintro s rfl
    trivial
  · rintro as s a s' hr hs ⟨hnext, -⟩
    exact attended_next hnext (unsent (w := .child) (by decide) hout hcode hr) hs

/-! ### What is left of the programs -/

theorem todo_suffix {as : List (Label E)} (h : (system shell outside main code).Exec as s)
    {w : Who} (hp : s.proc w = some p) : p.todo <:+ w.program main code := by
  refine proc_invariant (I := fun _ p => p.todo <:+ w.program main code) ?_ ?_ ?_ h p hp
  · rintro rfl
    exact List.suffix_rfl
  · rintro as s p ok - - rfl -
    exact List.suffix_rfl
  · intro as s a p q _ _ hsuffix _ hc
    exact (todo_suffix_of_changes hc).trans hsuffix

def Instr.isFork : Instr E → Bool
  | .fork => true
  | _ => false

/-- Only the first process forks, and at most once. -/
def ForksOnce : State E → Prop
  | .single p => p.todo.countP Instr.isFork ≤ 1
  | .forked p c _ => .fork ∉ p.todo ∧ .fork ∉ c.todo

theorem forksOnce_next {a : Label E} (h : next shell code s a.1 = some (s', a.2))
    (hcode : .fork ∉ code) (hs : ForksOnce s) : ForksOnce s' := by
  cases s with
  | single p =>
      obtain ⟨q, hq, hc⟩ := changes_of_next (w := .parent) h rfl
      cases s' with
      | single q' =>
          cases hq
          exact (todo_suffix_of_changes hc).sublist.countP_le.trans hs
      | forked q' d waited =>
          cases hq
          obtain ⟨p', k, ok, hp, -, htodo, rfl, rfl⟩ := born_of_next h rfl rfl
          cases hp
          have hk : .fork ∉ k := by
            have hone : p.todo.countP Instr.isFork ≤ 1 := hs
            rw [htodo, List.countP_cons_of_pos (by rfl)] at hone
            have hzero : k.countP Instr.isFork = 0 := by omega
            exact fun hmem => List.countP_eq_zero.1 hzero _ hmem rfl
          refine ⟨?_, hcode⟩
          cases hc with
          | did _ _ hfork =>
              rw [hfork] at htodo
              cases htodo
              exact hk
          | same hne | report hne | orphan hne => exact absurd rfl hne
  | forked p c waited =>
      obtain ⟨q, hq, hp⟩ := changes_of_next (w := .parent) h rfl
      obtain ⟨d, hd, hc⟩ := changes_of_next (w := .child) h rfl
      cases s' with
      | single q' => cases hd
      | forked q' d' waited' =>
          cases hq
          cases hd
          exact ⟨fun hmem => hs.1 ((todo_suffix_of_changes hp).subset hmem),
            fun hmem => hs.2 ((todo_suffix_of_changes hc).subset hmem)⟩

theorem forksOnce (hmain : main.countP Instr.isFork ≤ 1) (hcode : .fork ∉ code)
    {as : List (Label E)} (h : (system shell outside main code).Exec as s) : ForksOnce s := by
  refine Lts.Exec.state_invariant (I := ForksOnce) ?_ ?_ h
  · rintro s rfl
    exact hmain
  · rintro s a s' hs ⟨hnext, -⟩
    exact forksOnce_next hnext hcode hs

/-- **A process is never stopped** if neither its program nor anyone else sends it a stop signal. -/
theorem not_stopped {as : List (Label E)} {w : Who} (hout : ∀ t ∈ Sig.stops, t ∉ outside)
    (hprogram : ∀ t ∈ Sig.stops, .kill t ∉ w.program main code)
    (h : (system shell outside main code).Exec as s) :
    ∀ p, s.proc w = some p → p.status ≠ .stopped := by
  refine proc_invariant (I := fun _ p => p.status ≠ .stopped) ?_ ?_ ?_ h
  · intro _
    exact nofun
  · intro as s p ok _ _ _ hready
    show p.status ≠ .stopped
    rw [hready.1]
    decide
  · intro as s a p q hr hp hne _ hc
    cases hc with
    | same _ => exact hne
    | did ok hready _ =>
        rw [status_perform ok hready]
        decide
    | exit _ _ => exact nofun
    | deliver hd =>
        intro hstopped
        obtain ⟨ht, hmem, -⟩ := status_deliver hd hstopped
        exact (unsent ht (hout _ ht) (hprogram _ ht) hr p hp).pending hmem
    | send t =>
        intro hstopped
        exact hne ((status_raise t p).2 hstopped)
    | report _ _ =>
        intro hstopped
        exact hne ((status_raise .chld p).2 hstopped)
    | orphan _ _ => exact status_orphan (Or.inr hne)

/-! ### Runs that are not stuck -/

/-- All processes have exited. -/
def AllExited (s : State E) : Prop := ∀ w p, s.proc w = some p → p.status = .exited

/-- A signal can be delivered to a process that is not ready. -/
theorem exists_deliver (hrun : p.status = .running) (hready : ¬ p.Ready) (orphaned : Bool) :
    ∃ t r, p.deliver t orphaned = some r := by
  obtain ⟨t, hmem, hblocked⟩ := Finset.not_subset.1 fun hsub => hready ⟨hrun, hsub⟩
  refine ⟨t, ?_⟩
  rw [Process.deliver, if_pos ⟨hrun, hmem, hblocked⟩]
  by_cases hcaught : t ∈ p.caught
  · exact ⟨_, if_pos hcaught⟩
  · simp only [if_neg hcaught]
    cases t.default <;> exact ⟨_, rfl⟩

/-- **A process that runs can make a step**, unless it waits for its child. -/
theorem exists_next_of_running {w : Who} (hs : ForksOnce s) (hp : s.proc w = some p)
    (hrun : p.status = .running)
    (hwait : ∀ c k, w = .parent → s.proc .child = some c → p.todo = .wait :: k →
      c.status = .exited) :
    ∃ (a : Label E) (s' : State E), next shell code s a.1 = some (s', a.2) ∧
      ∀ v t, a.1 ≠ .send v t := by
  by_cases hready : p.Ready
  · suffices h : ∃ r, own shell code s w true = some r by
      obtain ⟨⟨s', e⟩, h⟩ := h
      exact ⟨(.own w true, e), s', h, fun _ _ => nofun⟩
    cases s with
    | single p' =>
        cases w with
        | child => cases hp
        | parent =>
            cases hp
            simp only [own, if_pos hready]
            split <;> exact ⟨_, rfl⟩
    | forked p' c waited =>
        cases w with
        | parent =>
            cases hp
            simp only [own, if_pos hready]
            split
            · exact ⟨_, rfl⟩
            · next htodo => exact absurd (htodo ▸ List.mem_cons_self) hs.1
            · next k htodo =>
                rw [if_pos (hwait c k rfl rfl htodo)]
                cases waited <;> exact ⟨_, rfl⟩
            · exact ⟨_, rfl⟩
        | child =>
            cases hp
            simp only [own, if_pos hready]
            split
            · exact ⟨_, rfl⟩
            · next htodo => exact absurd (htodo ▸ List.mem_cons_self) hs.2
            · exact ⟨_, rfl⟩
            · exact ⟨_, rfl⟩
  · suffices h : ∃ t r, deliver shell s w t = some r by
      obtain ⟨t, ⟨s', e⟩, h⟩ := h
      exact ⟨(.deliver w t, e), s', h, fun _ _ => nofun⟩
    cases s with
    | single p' =>
        cases w with
        | child => cases hp
        | parent =>
            cases hp
            obtain ⟨t, r, h⟩ := exists_deliver hrun hready (!shell)
            exact ⟨t, _, congrArg (Option.map _) h⟩
    | forked p' c waited =>
        cases w with
        | parent =>
            cases hp
            obtain ⟨t, r, h⟩ := exists_deliver hrun hready (!shell)
            exact ⟨t, _, congrArg (Option.map _) h⟩
        | child =>
            cases hp
            obtain ⟨t, r, h⟩ := exists_deliver hrun hready (!shell || p'.status = .exited)
            exact ⟨t, _, congrArg (Option.map _) h⟩

/-- The first process is not stopped, and neither is its child when it is waited for or left
behind. -/
def Lively : State E → Prop
  | .single p => p.status ≠ .stopped
  | .forked p c _ => p.status ≠ .stopped ∧
      (p.status = .exited ∨ (∃ k, p.todo = .wait :: k) → c.status ≠ .stopped)

theorem lively_of_not_stopped (h : ∀ w p, s.proc w = some p → p.status ≠ .stopped) :
    Lively s := by
  cases s with
  | single p => exact h .parent p rfl
  | forked p c waited => exact ⟨h .parent p rfl, fun _ => h .child c rfl⟩

/-- **A run is not stuck** before all processes have exited. -/
theorem exists_next (hs : ForksOnce s) (hlively : Lively s) (hexited : ¬ AllExited s) :
    ∃ (a : Label E) (s' : State E), next shell code s a.1 = some (s', a.2) ∧
      ∀ v t, a.1 ≠ .send v t := by
  have hstatus : ∀ x : Status, x ≠ .stopped → x ≠ .exited → x = .running := by
    intro x hstopped hexited
    cases x with
    | running => rfl
    | stopped => exact absurd rfl hstopped
    | exited => exact absurd rfl hexited
  cases s with
  | single p =>
      refine exists_next_of_running hs (w := .parent) rfl (hstatus _ hlively ?_) ?_
      · intro hp
        refine hexited fun w q hq => ?_
        cases w with
        | parent =>
            cases hq
            exact hp
        | child => cases hq
      · intro c k _ hc
        cases hc
  | forked p c waited =>
      by_cases hc : c.status = .running
      · exact exists_next_of_running hs (w := .child) rfl hc (fun _ _ hw => by cases hw)
      · by_cases hp : p.status = .exited
        · -- the child has exited too
          refine absurd ?_ hc
          refine hstatus _ (hlively.2 (Or.inl hp)) fun hc' => hexited fun w q hq => ?_
          cases w with
          | parent =>
              cases hq
              exact hp
          | child =>
              cases hq
              exact hc'
        · refine exists_next_of_running hs (w := .parent) rfl
            (hstatus _ hlively.1 hp) ?_
          intro c' k _ hc' htodo
          cases hc'
          by_contra hne
          exact hc (hstatus _ (hlively.2 (Or.inr ⟨k, htodo⟩)) hne)

/-- **Every run can be continued**, without signals from outside, **until all processes have
exited**. -/
theorem exists_run_exited (hmain : main.countP Instr.isFork ≤ 1) (hcode : .fork ∉ code)
    (hlively : ∀ as s, (system shell outside main code).Exec as s → Lively s)
    {as : List (Label E)} (h : (system shell outside main code).Exec as s) :
    ∃ bs s', (system shell outside main code).Run s bs s' ∧ AllExited s' := by
  refine Lts.exists_run_of_rank (State.rank code) (fun as s hr hs => ?_) h
  obtain ⟨a, s', hnext, hsend⟩ : ∃ (a : Label E) (s' : State E),
      next shell code s a.1 = some (s', a.2) ∧ ∀ v t, a.1 ≠ .send v t :=
    exists_next (forksOnce hmain hcode hr) (hlively as s hr) hs
  have hgrant : grant a = 0 := by
    obtain ⟨c, e⟩ := a
    cases c with
    | own _ _ | deliver _ _ => rfl
    | send v t => exact absurd rfl (hsend v t)
  refine ⟨a, s', ⟨hnext, fun v t h => absurd h (hsend v t)⟩, ?_⟩
  have hpay := rank_next hnext
  omega

end Signals
