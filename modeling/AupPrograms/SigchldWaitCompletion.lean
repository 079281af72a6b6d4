/-
**The parent that waits twice returns** (`assignment_9/sigchld_wait_sync.c`).

A signal that is sent before the child exits makes the handler wait for it, and `main` with it.
Nothing else can keep the parent from returning: it waits only while the child runs or is stopped,
and each signal makes the handler run once at most.  A child that is stopped needs somebody outside
to continue or to kill it.

Main definitions:

* `SigchldWait.rank` — what is left to do;
* `SigchldWait.isOutside` — the child is killed, stopped or continued, or a signal is sent;
* `SigchldWait.Finished` — `main` has returned, and no signal is left.

Main results:

* `SigchldWait.pays` — every step is paid for;
* `SigchldWait.exists_lower` — some step is possible that nobody outside is needed for, unless the
  child is stopped;
* `SigchldWait.main_returns` — **every run is bounded and can be completed**, by itself exactly when
  the child is not stopped.
-/

import AupPrograms.Completion
import AupPrograms.SigchldWait

set_option relaxedAutoImplicit false
set_option autoImplicit false

namespace SigchldWait

variable {s s' : St} {e : Option Event}

/-! ### Ranks -/

/-- What is left of `main`; the fork pays for the child. -/
def Pc.left : Pc → ℕ
  | .signal => 9
  | .fork => 8
  | .wait => 2
  | .print => 1
  | .returned | .signalFailed | .forkFailed => 0

/-- What is left of the handler. -/
def HandlerPc.left : HandlerPc → ℕ
  | .enter => 3
  | .wait => 2
  | .print => 1

/-- What is left of the child: its exit, and the signal that this sends. -/
def Child.left : Child → ℕ
  | .running | .stopped => 5
  | .none | .zombie | .reaped => 0

/-- What is left to do; a pending signal makes the handler run. -/
def rank (s : St) : ℕ :=
  s.main.left + s.handler.elim 0 HandlerPc.left + 4 * s.pending.toNat + s.child.left

/-- The child is killed, stopped or continued, or a signal is sent from outside. -/
def isOutside : Label → Bool
  | (.act .kill, _) | (.act .stop, _) | (.act .continue, _) | (.act .send, _) => true
  | _ => false

theorem rank_raise (s : St) : rank s.raise ≤ rank s + 4 := by
  have hle : s.pending.toNat ≤ 1 := Bool.toNat_le s.pending
  unfold St.raise
  split
  · omega
  · omega
  · simp only [rank, Bool.toNat_true]
    omega

/-- A call of `wait` leaves nothing more to do. -/
theorem left_wait {child child' : Child} {b : Bool} (h : wait child = some (b, child')) :
    child'.left = 0 ∧ child.left = 0 := by
  cases child <;> cases h <;> exact ⟨rfl, rfl⟩

/-- A step of `main` is one of what is left of it. -/
theorem rank_main {ok : Bool} (h : main s ok = some (s', e)) : rank s' + 1 ≤ rank s := by
  obtain ⟨pc, handler, pending, child⟩ := s
  rw [main] at h
  split at h
  · cases h
  · cases pc with
    | returned | signalFailed | forkFailed => cases h
    | signal =>
        cases ok <;> cases h <;>
          simp only [rank, Pc.left, Bool.false_eq_true, if_false, if_true] <;> omega
    | print =>
        cases h
        simp only [rank, Pc.left]
        omega
    | fork =>
        cases ok with
        | true =>
            cases h
            simp only [rank, if_true, Pc.left, Child.left]
            omega
        | false =>
            cases h
            simp only [rank, Bool.false_eq_true, if_false, Pc.left]
            omega
    | wait =>
        obtain ⟨⟨b, child'⟩, hw, heq⟩ := Option.map_eq_some_iff.1 h
        cases heq
        obtain ⟨hafter, hbefore⟩ := left_wait hw
        simp only [rank, Pc.left]
        omega

/-- A step of the handler is one of what is left of it. -/
theorem rank_sig_chld (h : sig_chld s = some (s', e)) : rank s' + 1 ≤ rank s := by
  obtain ⟨pc, handler, pending, child⟩ := s
  rcases handler with _ | _ | _ | _
  · cases h
  · cases h
    simp only [rank, Option.elim_some, HandlerPc.left]
    omega
  · obtain ⟨⟨b, child'⟩, hw, heq⟩ := Option.map_eq_some_iff.1 h
    cases heq
    obtain ⟨hafter, hbefore⟩ := left_wait hw
    simp only [rank, Option.elim_some, HandlerPc.left]
    omega
  · cases h
    simp only [rank, Option.elim_some, Option.elim_none, HandlerPc.left]
    omega

/-- The child comes to its end, and the signal that this sends is paid for. -/
theorem rank_zombie (h : s.child = .running ∨ s.child = .stopped) :
    rank { s with child := .zombie }.raise + 1 ≤ rank s := by
  have hraise := rank_raise { s with child := .zombie }
  have hzombie : rank { s with child := .zombie } + 5 = rank s := by
    rcases h with hc | hc <;> simp only [rank, hc, Child.left]
  omega

/-- What the child does is paid for by its exit, or comes from outside. -/
theorem rank_act {a : Action} (h : act s a = some s') :
    rank s' + 1 ≤ rank s + if isOutside (.act a, none) then 5 else 0 := by
  cases a with
  | exit =>
      obtain ⟨hc, heq⟩ := Option.ite_none_right_eq_some.1 h
      obtain rfl := Option.some_inj.1 heq
      exact rank_zombie (Or.inl hc)
  | kill =>
      obtain ⟨hc, heq⟩ := Option.ite_none_right_eq_some.1 h
      obtain rfl := Option.some_inj.1 heq
      exact (rank_zombie hc).trans (Nat.le_add_right _ _)
  | stop =>
      obtain ⟨hc, heq⟩ := Option.ite_none_right_eq_some.1 h
      obtain rfl := Option.some_inj.1 heq
      have hraise := rank_raise { s with child := .stopped }
      have hsame : rank { s with child := .stopped } = rank s := by
        simp only [rank, hc, Child.left]
      simp only [isOutside, if_true]
      omega
  | «continue» =>
      obtain ⟨hc, heq⟩ := Option.ite_none_right_eq_some.1 h
      obtain rfl := Option.some_inj.1 heq
      have hraise := rank_raise { s with child := .running }
      have hsame : rank { s with child := .running } = rank s := by
        simp only [rank, hc, Child.left]
      simp only [isOutside, if_true]
      omega
  | send =>
      obtain rfl := Option.some_inj.1 h
      have hraise := rank_raise s
      simp only [isOutside, if_true]
      omega

/-- **Every step is paid for**, by the rank or by what comes from outside. -/
theorem rank_next {a : Label} (h : next s a.1 = some (s', a.2)) :
    rank s' + 1 ≤ rank s + if isOutside a then 5 else 0 := by
  obtain ⟨c, e⟩ := a
  cases c with
  | main ok => exact (rank_main h).trans (Nat.le_add_right _ _)
  | sig_chld => exact (rank_sig_chld h).trans (Nat.le_add_right _ _)
  | deliver =>
      obtain ⟨⟨hpending, hhandler⟩, heq⟩ := Option.ite_none_right_eq_some.1 h
      cases heq
      refine Nat.le_trans ?_ (Nat.le_add_right _ _)
      simp only [rank, hpending, hhandler, Option.elim_none, Option.elim_some, HandlerPc.left,
        Bool.toNat_true, Bool.toNat_false]
      omega
  | act a =>
      obtain ⟨s₁, ha, heq⟩ := Option.map_eq_some_iff.1 h
      cases heq
      exact rank_act ha

theorem pays : system.Pays rank fun a => if isOutside a then 5 else 0 :=
  fun _ _ _ _ _ hs => rank_next hs

/-! ### Every run can be completed -/

/-- `main` has returned, and no signal is left. -/
structure Finished (s : St) : Prop where
  main : s.main = .returned ∨ s.main = .signalFailed ∨ s.main = .forkFailed
  handler : s.handler = none
  pending : s.pending = false

theorem exists_wait {child : Child} (h : child ≠ .running) (h' : child ≠ .stopped) :
    ∃ r, wait child = some r := by
  cases child with
  | running => exact absurd rfl h
  | stopped => exact absurd rfl h'
  | none | zombie | reaped => exact ⟨_, rfl⟩

/-- **Some step is possible that nobody outside is needed for**, unless all is done or the child is
stopped: the child exits, a signal is delivered, or the handler or `main` goes on. -/
theorem exists_lower (hnot : ¬ Finished s) (hstopped : s.child ≠ .stopped) :
    ∃ a s', system.step s a s' ∧ isOutside a = false := by
  by_cases hrunning : s.child = .running
  · exact ⟨(.act .exit, none), _, congrArg (Option.map _) (if_pos hrunning), rfl⟩
  · obtain ⟨r, hw⟩ := exists_wait hrunning hstopped
    cases hhandler : s.handler with
    | some pc =>
        obtain ⟨⟨s', e⟩, hs⟩ : ∃ r, sig_chld s = some r := by
          cases pc <;> simp [sig_chld, hhandler, hw]
        exact ⟨(.sig_chld, e), s', hs, rfl⟩
    | none =>
        cases hpending : s.pending with
        | true => exact ⟨(.deliver, none), _, if_pos ⟨hpending, hhandler⟩, rfl⟩
        | false =>
            obtain ⟨⟨s', e⟩, hs⟩ : ∃ r, main s true = some r := by
              cases hpc : s.main with
              | signal | fork | print | wait => simp [main, hhandler, hpc, hw]
              | returned => exact absurd ⟨Or.inl hpc, hhandler, hpending⟩ hnot
              | signalFailed => exact absurd ⟨Or.inr (Or.inl hpc), hhandler, hpending⟩ hnot
              | forkFailed => exact absurd ⟨Or.inr (Or.inr hpc), hhandler, hpending⟩ hnot
            exact ⟨(.main true, e), s', hs, rfl⟩

/-- A call of `wait` finds or leaves no child that is stopped. -/
theorem ne_stopped_of_wait {child child' : Child} {b : Bool} (h : wait child = some (b, child')) :
    child ≠ .stopped ∧ child' ≠ .stopped := by
  cases child <;> cases h <;> exact ⟨nofun, nofun⟩

/-- A step of `main` does not stop or continue the child. -/
theorem stopped_iff_of_main {as : List Label} {ok : Bool} (hr : system.Exec as s)
    (h : main s ok = some (s', e)) : s'.child = .stopped ↔ s.child = .stopped := by
  rw [main] at h
  split at h
  · cases h
  · split at h
    case h_1 | h_4 =>
      cases h
      exact Iff.rfl
    case h_2 hpc =>
      -- there is no child before the fork
      have hnone : s.child = .none := (inv hr).forked.2 (by rw [hpc]; rfl)
      cases ok with
      | true =>
          cases h
          exact iff_of_false (by simp) (by rw [hnone]; decide)
      | false =>
          cases h
          exact Iff.rfl
    case h_3 =>
      obtain ⟨⟨b, child'⟩, hw, heq⟩ := Option.map_eq_some_iff.1 h
      cases heq
      obtain ⟨hbefore, hafter⟩ := ne_stopped_of_wait hw
      exact iff_of_false hafter hbefore
    all_goals cases h

theorem stopped_iff_of_sig_chld (h : sig_chld s = some (s', e)) :
    s'.child = .stopped ↔ s.child = .stopped := by
  rw [sig_chld] at h
  split at h
  case h_1 => cases h
  case h_3 =>
    obtain ⟨⟨b, child'⟩, hw, heq⟩ := Option.map_eq_some_iff.1 h
    cases heq
    obtain ⟨hbefore, hafter⟩ := ne_stopped_of_wait hw
    exact iff_of_false hafter hbefore
  case h_2 | h_4 =>
    cases h
    exact Iff.rfl

/-- Only somebody outside stops or continues the child. -/
theorem stopped_iff_of_step {as : List Label} {a : Label} (hr : system.Exec as s)
    (h : system.step s a s') (ha : isOutside a = false) :
    s'.child = .stopped ↔ s.child = .stopped := by
  obtain ⟨c, e⟩ := a
  change next s c = some (s', e) at h
  cases c with
  | main ok => exact stopped_iff_of_main hr h
  | sig_chld => exact stopped_iff_of_sig_chld h
  | deliver =>
      obtain ⟨-, heq⟩ := Option.ite_none_right_eq_some.1 h
      cases heq
      exact Iff.rfl
  | act a =>
      obtain ⟨s₁, hact, heq⟩ := Option.map_eq_some_iff.1 h
      cases heq
      cases a with
      | exit =>
          obtain ⟨hc, heq⟩ := Option.ite_none_right_eq_some.1 hact
          obtain rfl := Option.some_inj.1 heq
          rw [raise_child, hc]
          exact iff_of_false nofun nofun
      | kill | stop | «continue» | send => cases ha

theorem stopped_iff_of_run {as bs : List Label} (hr : system.Exec as s) (h : system.Run s bs s')
    (hbs : ∀ b ∈ bs, isOutside b = false) : s'.child = .stopped ↔ s.child = .stopped := by
  induction h with
  | nil => exact Iff.rfl
  | snoc hrun hs ih =>
      have hlast := hbs _ (List.mem_append_right _ (List.mem_singleton_self _))
      rw [stopped_iff_of_step (hr.trans hrun) hs hlast]
      exact ih fun b hb => hbs b (List.mem_append_left _ hb)

/-- Once all is done no child is stopped. -/
theorem Finished.ne_stopped {as : List Label} (h : Finished s) (hr : system.Exec as s) :
    s.child ≠ .stopped := by
  have hi := inv hr
  rcases h.main with hm | hm | hm
  · rw [hi.waited (by rw [hm]; rfl)]
    decide
  · rw [hi.forked.2 (by rw [hm]; rfl)]
    decide
  · rw [hi.forked.2 (by rw [hm]; rfl)]
    decide

/-- A run can be completed as long as the child is not stopped. -/
theorem exists_run_finished {as : List Label} (h : system.Exec as s) (hs : s.child ≠ .stopped) :
    ∃ bs s', system.Run s bs s' ∧ (∀ b ∈ bs, isOutside b = false) ∧ Finished s' := by
  obtain ⟨bs, s', hrun, hbs, hgoal⟩ : ∃ bs s', system.Run s bs s' ∧
      (∀ b ∈ bs, isOutside b = false) ∧ (Finished s' ∨ s'.child = .stopped) := by
    refine Lts.exists_run_among _ rank (fun as s hr hn => ?_) h
    obtain ⟨hnot, hstopped⟩ := not_or.1 hn
    obtain ⟨a, s', hs, ha⟩ := exists_lower hnot hstopped
    have hpay := rank_next hs
    rw [ha, if_neg Bool.false_ne_true] at hpay
    exact ⟨a, s', hs, ha, hpay⟩
  refine ⟨bs, s', hrun, hbs, hgoal.resolve_right fun hstopped => hs ?_⟩
  exact (stopped_iff_of_run h hrun hbs).1 hstopped

/-- **The parent returns**: a run has nine steps at most, and five for each kill, stop or
continuation of the child or signal from outside; it can be completed without any more of them
exactly when the child is not stopped, and else after one continuation or kill. -/
theorem main_returns {as : List Label} (h : system.Exec as s) :
    as.length ≤ 9 + 5 * as.countP isOutside ∧
      ((∃ bs s', system.Run s bs s' ∧ (∀ b ∈ bs, isOutside b = false) ∧ Finished s') ↔
        s.child ≠ .stopped) ∧
      (s.child = .stopped → ∀ a, a = .continue ∨ a = .kill →
        ∃ bs s', system.Run s ((.act a, none) :: bs) s' ∧ (∀ b ∈ bs, isOutside b = false) ∧
          Finished s') := by
  refine ⟨?_, ⟨?_, exists_run_finished h⟩, ?_⟩
  · have hle := pays.length_le (n := 9) (fun s hs => by rw [show s = started from hs]; decide) h
    rw [Lts.sum_grant] at hle
    omega
  · rintro ⟨bs, s', hrun, hbs, hfinished⟩ hstopped
    exact hfinished.ne_stopped (h.trans hrun) ((stopped_iff_of_run h hrun hbs).2 hstopped)
  · intro hstopped a ha
    obtain ⟨s₁, hact, hchild⟩ : ∃ s₁, act s a = some s₁ ∧ s₁.child ≠ .stopped := by
      rcases ha with rfl | rfl
      · exact ⟨_, if_pos hstopped, by simp⟩
      · exact ⟨_, if_pos (Or.inr hstopped), by simp⟩
    have hs : system.step s (.act a, none) s₁ := congrArg (Option.map _) hact
    obtain ⟨bs, s', hrun, hbs, hfinished⟩ :=
      exists_run_finished (h.trans (Lts.Run.single hs)) hchild
    exact ⟨bs, s', hrun.cons hs, hbs, hfinished⟩

/-- A signal from outside makes the handler wait for the child, which is stopped then. -/
def waiting : List Choice :=
  [.main true, .main true, .act .send, .deliver, .sig_chld, .act .stop]

theorem main_returns_waiting : ∃ as s, system.Exec as s ∧ s.handler = some .wait ∧
    (¬ ∃ bs s', system.Run s bs s' ∧ (∀ b ∈ bs, isOutside b = false) ∧ Finished s') ∧
      ∃ bs s', system.Run s ((.act .continue, none) :: bs) s' ∧
        (∀ b ∈ bs, isOutside b = false) ∧ Finished s' := by
  have h : (Lts.perform next started waiting).map (fun r => (r.1.handler, r.1.child))
      = some (some .wait, .stopped) := by
    decide
  obtain ⟨⟨s, es⟩, hperform, hs⟩ := Option.map_eq_some_iff.1 h
  obtain ⟨hhandler, hstopped⟩ := Prod.mk.inj hs
  have hex : system.Exec (waiting.zip es) s := ⟨started, rfl, (Lts.run_of_perform hperform).1⟩
  obtain ⟨-, hiff, hcontinued⟩ := main_returns hex
  refine ⟨_, s, hex, hhandler, fun hrun => hiff.1 hrun hstopped, ?_⟩
  exact hcontinued hstopped .continue (Or.inl rfl)

end SigchldWait
