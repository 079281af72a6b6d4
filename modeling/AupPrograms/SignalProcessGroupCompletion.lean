/-
**Signalling the process group comes to an end** (`assignment_8/signal_process_group.c`).

Process 0 polls a word in shared memory, and process 5 polls for the FIFO.  Process 0 stops when
process 5 has stored the group id or the alarm has come, process 5 when process 3 has made the FIFO.
Whatever the others do, there is a step that brings someone nearer to the end.  So every run can be
completed: all have ended, and process 0 has sent the signal or given up.

Main definitions:

* `SignalProcessGroup.rank` — how far the processes are from their ends;
* `SignalProcessGroup.Live` — what else holds in the successful runs;
* `SignalProcessGroup.Complete` — all have ended.

Main results:

* `SignalProcessGroup.Move.rank_lt` — a step comes nearer to the end, or it is polling;
* `SignalProcessGroup.exists_lower` — some step comes nearer to the end;
* `SignalProcessGroup.signal_completes` — **every run can be completed.**
-/

import AupPrograms.GroupHandoverCompletion
import AupPrograms.SignalProcessGroupRaces

set_option relaxedAutoImplicit false
set_option autoImplicit false

namespace SignalProcessGroup

open GroupHandover (Member Pids process3 process5)
open Syscall (Outcome)

variable {P : Pids} {s s' : St}

/-! ### Ranks -/

/-- How far a member of the group is from its end. -/
def Tail.left : Tail → ℕ
  | .store => 3
  | .signal => 2
  | .sleep => 1
  | .ended => 0

/-- How far the processes are from their ends; the alarm is to come. -/
def rank (s : St) : ℕ :=
  GroupHandover.rank s.base + ((s.tail .three).left + (s.tail .four).left + (s.tail .five).left)
    + 2 * (9 - s.pc0.place) + s.armed.toNat

/-- The member `p` goes on, and the others stay where they are. -/
theorem left_update (s : St) (p : Member) (t : Tail) :
    (Function.update s.tail p t .three).left + (Function.update s.tail p t .four).left
        + (Function.update s.tail p t .five).left + (s.tail p).left
      = (s.tail .three).left + (s.tail .four).left + (s.tail .five).left + t.left := by
  cases p <;> simp [Function.update] <;> omega

theorem rank_onward (s : St) (p : Member) (t : Tail) :
    rank (s.onward p t) + (s.tail p).left = rank s + t.left := by
  have hleft := left_update s p t
  simp only [rank, St.onward]
  omega

/-- A member that ends leaves the others where they are. -/
theorem rank_exit (s : St) (p : Member) : rank (s.exit p) + (s.tail p).left ≤ rank s := by
  have hleft := left_update s p .ended
  have hzero : Tail.left .ended = 0 := rfl
  have hbase : GroupHandover.rank (s.exit p).base ≤ GroupHandover.rank s.base := by
    cases p with
    | three =>
        have hle := GroupHandover.Pc3.place_le s.base.pc3
        simp [GroupHandover.rank, St.exit, GroupHandover.St.exit3]
    | four => exact le_refl _
    | five =>
        have hle := GroupHandover.Pc5.place_le s.base.pc5
        simp [GroupHandover.rank, St.exit, GroupHandover.St.exit5]
  have hexit : (s.exit p).tail = Function.update s.tail p .ended := rfl
  have hpc : (s.exit p).pc0 = s.pc0 := rfl
  have harmed : (s.exit p).armed = s.armed := rfl
  simp only [rank, hexit, hpc, harmed]
  omega

theorem rank_exits (vs : List Member) (s : St) :
    rank (vs.foldl St.exit s) ≤ rank s ∧ (vs.foldl St.exit s).pc0 = s.pc0 := by
  induction vs generalizing s with
  | nil => exact ⟨le_refl _, rfl⟩
  | cons p vs ih =>
      obtain ⟨hle, hpc⟩ := ih (s.exit p)
      have hexit := rank_exit s p
      exact ⟨by simp only [List.foldl_cons]; omega, hpc⟩

theorem rank_goto0 (s : St) (pc : Pc0) :
    rank (s.goto0 pc) + 2 * (9 - s.pc0.place) = rank s + 2 * (9 - pc.place) := by
  simp only [rank, St.goto0]
  omega

/-- The open of process 5 fails. -/
def isInterrupted : Label → Bool
  | (.member .five r, _) => r ≠ .ok
  | _ => false

/-- **A step comes nearer to the end**, or it is polling. -/
theorem Move.rank_lt {c : Choice} {e : Option Event} (hm : Move P s c e s') :
    rank s' < rank s ∨ c = .zero .ok ∧ s.pc0 = .poll ∧ s.word = -1 ∧ s' = s ∨
      ∃ r, c = .member .five r ∧ (s.base.pc5 = .open ∧ s' = s ∨
        s.base.pc5 = .opening ∧ s.base.pc3.place < 5 ∧ rank s' = rank s + 1) := by
  cases hm with
  | @handover p r e₀ _ b hb _ _ =>
      have hrank : rank { s with base := b } + GroupHandover.rank s.base
          = rank s + GroupHandover.rank b := by
        simp only [rank]
        omega
      rcases hb.rank_lt with hlt | ⟨rfl, ⟨hpc, rfl⟩ | ⟨hpc, hplace, heq⟩⟩
      · exact Or.inl (by omega)
      · exact Or.inr (Or.inr ⟨r, rfl, Or.inl ⟨hpc, rfl⟩⟩)
      · exact Or.inr (Or.inr ⟨r, rfl, Or.inr ⟨hpc, hplace, by omega⟩⟩)
  | store _ htail =>
      have hrank := rank_onward { s with word := P.pid .three } .five .signal
      have hword : rank { s with word := P.pid .three } = rank s := rfl
      have hstore : (s.tail .five).left = 3 := by rw [htail]; rfl
      have hsignal : Tail.left .signal = 2 := rfl
      exact Or.inl (by dsimp only at hrank; omega)
  | @install p _ htail =>
      have hrank := rank_onward s p .sleep
      rw [htail] at hrank
      simp only [Tail.left] at hrank
      exact Or.inl (by omega)
  | @wake p _ htail =>
      have hrank := rank_exit s p
      rw [htail] at hrank
      simp only [Tail.left] at hrank
      exact Or.inl (by omega)
  | poll hpc =>
      by_cases hword : s.word = -1
      · rw [if_pos hword]
        refine Or.inr (Or.inl ⟨rfl, hpc, hword, ?_⟩)
        rw [St.goto0, ← hpc]
      · rw [if_neg hword]
        have hrank := rank_goto0 s .alarmOff
        simp only [hpc, Pc0.place] at hrank
        exact Or.inl (by omega)
  | signalAlrm hpc | alarm hpc | alarmOff hpc | print hpc | munmap hpc | giveUp hpc _
  | pass hpc _ =>
      refine Or.inl ?_
      simp only [rank, St.goto0, hpc, Pc0.place, Bool.toNat_true, Bool.toNat_false]
      omega
  | @kill target vs hpc _ _ =>
      obtain ⟨hle, hkeep⟩ := rank_exits vs s
      have hrank := rank_goto0 (vs.foldl St.exit s) .munmap
      rw [hkeep, hpc] at hrank
      simp only [Pc0.place] at hrank
      exact Or.inl (by omega)
  | alarmed harmed =>
      have hrank : rank { s with word := -2, armed := false } + 1 = rank s := by
        simp only [rank, harmed, Bool.toNat_false, Bool.toNat_true]
      exact Or.inl (by omega)

/-! ### What else holds -/

/-- **What else holds in the successful runs**: while process 0 polls, the alarm is to come or the
word has changed, and what has ended runs no more. -/
structure Live (s : St) : Prop where
  waiting : s.pc0 = .poll → s.armed = true ∨ s.word ≠ -1
  gone : ∀ p, s.tail p = .ended → s.running p = false

theorem Live.exit (h : Live s) (p : Member) : Live (s.exit p) where
  waiting := h.waiting
  gone q hq := by
    rw [Bool.eq_false_iff]
    intro hrun
    obtain ⟨hne, hrun'⟩ := running_exit.1 hrun
    have htail : s.tail q = .ended := by
      simpa [St.exit, Function.update_of_ne hne] using hq
    rw [h.gone q htail] at hrun'
    cases hrun'

theorem Live.exits (h : Live s) (vs : List Member) : Live (vs.foldl St.exit s) := by
  induction vs generalizing s with
  | nil => exact h
  | cons p vs ih => exact ih (h.exit p)

theorem Live.onward (h : Live s) (p : Member) {t : Tail} (ht : t ≠ .ended) :
    Live (s.onward p t) where
  waiting := h.waiting
  gone q hq := by
    rcases eq_or_ne q p with rfl | hne
    · exact absurd (by simpa [St.onward] using hq) ht
    · rw [running_onward hne]
      exact h.gone q (by simpa [St.onward, Function.update_of_ne hne] using hq)

theorem Live.move {c : Choice} {e : Option Event} (h : Live s)
    (hm : Move P s c e s') : Live s' := by
  have hpos := P.pos .three
  cases hm with
  | handover hb _ _ =>
      obtain ⟨hthree, hfive⟩ := hb.ended
      refine ⟨h.waiting, fun q hq => ?_⟩
      have hrun := h.gone q hq
      cases q with
      | three =>
          simp only [St.running, bne_eq_false_iff_eq] at hrun ⊢
          exact hthree hrun
      | four => exact hrun
      | five =>
          simp only [St.running, bne_eq_false_iff_eq] at hrun ⊢
          exact hfive hrun
  | store _ _ =>
      have hword : P.pid .three ≠ -1 := by omega
      have hstored : Live { s with word := P.pid .three } := ⟨fun _ => Or.inr hword, h.gone⟩
      exact hstored.onward .five (t := .signal) (by decide)
  | install _ _ => exact h.onward _ (by decide)
  | wake _ _ => exact h.exit _
  | poll hpc => exact ⟨fun _ => h.waiting hpc, h.gone⟩
  | alarm hpc => exact ⟨fun _ => Or.inl rfl, h.gone⟩
  | signalAlrm _ | alarmOff _ | giveUp _ _ | pass _ _ | print _ | munmap _ =>
      refine ⟨fun hpc => ?_, h.gone⟩
      cases hpc
  | kill _ _ _ =>
      refine ⟨fun hpc => ?_, (h.exits _).gone⟩
      cases hpc
  | alarmed _ => exact ⟨fun _ => Or.inr (show (-2 : ℤ) ≠ -1 by decide), h.gone⟩

/-- Process 0 comes nearer to its end, or the alarm does. -/
theorem exists_lower_zero (hl : Live s) (hplace : s.pc0.place < 8) :
    ∃ a s', (successful P).step s a s' ∧ rank s' < rank s := by
  by_cases hpoll : s.pc0 = .poll ∧ s.word = -1
  · obtain ⟨hpc, hword⟩ := hpoll
    have harmed : s.armed = true := (hl.waiting hpc).resolve_right fun hne => hne hword
    have hs : next P s .sigalrm = some ({ s with word := -2, armed := false }, some .alarmed) :=
      if_pos harmed
    refine ⟨(.sigalrm, some .alarmed), _, ⟨hs, trivial⟩, ?_⟩
    simp only [rank, harmed, Bool.toNat_true, Bool.toNat_false]
    omega
  · obtain ⟨⟨s', e⟩, hs⟩ : ∃ r, process0 P s .ok = some r := by
      cases hpc : s.pc0 with
      | signalAlrm | alarm | poll | alarmOff | print | kill | munmap =>
          exact ⟨_, by simp [process0, hpc]; rfl⟩
      | check =>
          simp only [process0, hpc]
          split_ifs <;> exact ⟨_, rfl⟩
      | gaveUp | ended =>
          rw [hpc] at hplace
          exact absurd hplace (by decide)
    refine ⟨(.zero .ok, e), s', ⟨hs, rfl⟩, ?_⟩
    rcases (move_of_process0 hs).rank_lt with hlt | ⟨-, hpc, hword, -⟩ | ⟨r, hr, -⟩
    · exact hlt
    · exact absurd ⟨hpc, hword⟩ hpoll
    · cases hr

/-- A member of the group that has done its part of the hand-over comes nearer to its end. -/
theorem exists_lower_done (hi : Inv P s) (hl : Live s) {p : Member} (hdone : Done s p)
    (hrun : s.running p = true) : ∃ a s', (successful P).step s a s' ∧ rank s' < rank s := by
  obtain ⟨⟨s', e⟩, hs⟩ : ∃ r, afterwards s p .ok = some r := by
    cases htail : s.tail p with
    | store | signal | sleep => exact ⟨_, by simp [afterwards, htail]; rfl⟩
    | ended =>
        rw [hl.gone p htail] at hrun
        cases hrun
  have hmember : member P s p .ok = some (s', e) := by
    cases p with
    | three | five => exact (if_pos hdone).trans hs
    | four => exact hs
  refine ⟨(.member p .ok, e), s', ⟨hmember, Or.inl rfl⟩, ?_⟩
  rcases (move_of_afterwards hi hdone hs).rank_lt with hlt | ⟨hc, -⟩ | ⟨r, hc, hpc⟩
  · exact hlt
  · cases hc
  · -- process 5 does not poll any more
    cases hc
    have hafter : s.base.pc5 = .after := hdone
    rw [hafter] at hpc
    rcases hpc with ⟨hpc, -⟩ | ⟨hpc, -⟩ <;> cases hpc

/-- The hand-over comes nearer to its end. -/
theorem exists_lower_handover (hi : Inv P s)
    (h : s.base.pc3.place < 8 ∨ s.base.pc5.place < 4) :
    ∃ a s', (successful P).step s a s' ∧ rank s' < rank s := by
  obtain ⟨p, b, e, hb, hlt, hp⟩ := GroupHandover.exists_next hi.base h
  have hmember : member P s p .ok = some ({ s with base := b }, e.map .handover) := by
    rcases hp with ⟨rfl, hplace⟩ | ⟨rfl, hplace⟩
    · have hpc : s.base.pc3 ≠ .after := by
        intro hpc
        rw [hpc] at hplace
        exact absurd hplace (by decide)
      have hthree : process3 P s.base .ok = some (b, e) := hb
      simp only [member, if_neg hpc, hthree, Option.map_some, handover]
    · have hpc : s.base.pc5 ≠ .after := by
        intro hpc
        rw [hpc] at hplace
        exact absurd hplace (by decide)
      have hfive : process5 P s.base .ok = some (b, e) := hb
      simp only [member, if_neg hpc, hfive, Option.map_some, handover]
  refine ⟨(.member p .ok, e.map .handover), _, ⟨hmember, Or.inl rfl⟩, ?_⟩
  simp only [rank]
  omega

/-- All processes have ended. -/
structure Ended (s : St) : Prop where
  zero : 7 < s.pc0.place
  members : ∀ p, s.running p = false

/-- **Some step comes nearer to the end**, unless all have ended. -/
theorem exists_lower (hi : Inv P s) (hl : Live s) (hnot : ¬ Ended s) :
    ∃ a s', (successful P).step s a s' ∧ rank s' < rank s := by
  by_cases hzero : s.pc0.place < 8
  · exact exists_lower_zero hl hzero
  · by_cases hbase : s.base.pc3.place < 8 ∨ s.base.pc5.place < 4
    · exact exists_lower_handover hi hbase
    · obtain ⟨p, hrun⟩ : ∃ p, s.running p = true := by
        by_contra hall
        refine hnot ⟨by omega, fun p => ?_⟩
        exact Bool.eq_false_iff.2 fun hrun => hall ⟨p, hrun⟩
      refine exists_lower_done hi hl (p := p) ?_ hrun
      cases p with
      | three =>
          cases hpc : s.base.pc3 <;> simp_all [Done, St.running, GroupHandover.Pc3.place]
      | four => trivial
      | five =>
          cases hpc : s.base.pc5 <;> simp_all [Done, St.running, GroupHandover.Pc5.place]

/-- What is interrupted is the open of process 5. -/
theorem interrupted_of_step {a : Label} {r : Outcome} (hi : Inv P s)
    (h : (successful P).step s a s') (ha : a.1 = .member .five r) (hpc : s.base.pc5 = .opening)
    (hplace : s.base.pc3.place < 5) : isInterrupted a = true := by
  obtain ⟨c, e⟩ := a
  obtain rfl := ha
  refine decide_eq_true ?_
  rintro rfl
  have hne : s.base.pc5 ≠ .after := by
    rw [hpc]
    decide
  have hmember : member P s .five .ok = some (s', e) := h.1
  simp only [member, if_neg hne] at hmember
  obtain ⟨⟨b, e'⟩, hb, -⟩ := Option.map_eq_some_iff.1 hmember
  have hidle : s.base.fifo.writer = .idle := by
    by_contra hwriter
    have hlt := hi.base.writer_ne.1 hwriter
    omega
  simp [process5, hpc, hidle] at hb

/-- A step that changes something is paid for, by the rank or by the open that is interrupted. -/
theorem pays (P : Pids) :
    (successful P).active.Pays rank fun a => if isInterrupted a then 2 else 0 := by
  rintro as s a s' hr ⟨hs, hne⟩
  have hi := inv hr.of_active
  rcases (move_of_step hi hs).rank_lt with hlt | ⟨-, -, -, heq⟩ | ⟨r, ha, ⟨-, heq⟩ | ⟨hpc, hplace,
    hrank⟩⟩
  · omega
  · exact absurd heq.symm hne
  · exact absurd heq.symm hne
  · have hgrant : (if isInterrupted a then 2 else 0) = 2 :=
      if_pos (interrupted_of_step hi hs ha hpc hplace)
    show rank s' + 1 ≤ rank s + if isInterrupted a then 2 else 0
    omega

/-- All processes have ended: the three are in the group of process 3, and process 0 has sent the
signal or has given up. -/
structure Complete (P : Pids) (as : List Label) (s : St) : Prop extends Ended s where
  group : ∀ p, s.base.pgid p = P.pid .three
  signalled : s.pc0 = .gaveUp ∨ ∃ a ∈ as, Kills a

theorem complete_of_ended {as : List Label} (h : (successful P).Exec as s) (hend : Ended s) :
    Complete P as s := by
  refine ⟨hend, fun p => ?_, ?_⟩
  · have hbase := GroupHandover.complete_of_ended (inv h).base ?_ ?_
    · exact hbase.group p
    · simpa [St.running] using hend.members .three
    · simpa [St.running] using hend.members .five
  · have hplace := hend.zero
    exact killed_of_place h (by omega)

end SignalProcessGroup
