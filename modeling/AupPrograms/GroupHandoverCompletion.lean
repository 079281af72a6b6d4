/-
**The hand-over comes to an end** (`assignment_7/change_process_group.c`).

Process 5 polls until the FIFO is there, and each of the two processes waits in its open for the
other one.  The polling can go on for ever, but only while process 3 does not move: unless both
processes have ended there is a step that brings one of them forward.  So every run can be
completed, and the steps that change something are bounded, up to the opens that a signal
interrupts.

Main definitions:

* `GroupHandover.rank` — how far the two processes are from their ends;
* `GroupHandover.Complete` — both have ended, and the group has been formed.

Main results:

* `GroupHandover.Move.rank_lt` — a step comes nearer to the end, or it is polling;
* `GroupHandover.exists_next` — **some step comes nearer to the end**;
* `GroupHandover.handover_completes` — **every run can be completed.**
-/

import AupPrograms.Completion
import AupPrograms.GroupHandover

set_option relaxedAutoImplicit false
set_option autoImplicit false

namespace GroupHandover

open Syscall (Outcome)

variable {P : Pids} {s s' : St}

/-- How far the two processes are from their ends. -/
def rank (s : St) : ℕ := (9 - s.pc3.place) + (5 - s.pc5.place)

/-- The open of process 5 fails. -/
def isInterrupted (a : Label) : Bool := a.1.1 = .five ∧ a.1.2 ≠ .ok

/-- **A step comes nearer to the end**, or it is polling. -/
theorem Move.rank_lt {p : Member} {e : Option Event} (hm : Move P s p e s') :
    rank s' < rank s ∨ p = .five ∧ (s.pc5 = .open ∧ s' = s ∨
      s.pc5 = .opening ∧ s.pc3.place < 5 ∧ rank s' = rank s + 1) := by
  cases hm with
  | poll hpc => exact Or.inr ⟨rfl, Or.inl ⟨hpc, rfl⟩⟩
  | interrupted hpc hplace =>
      refine Or.inr ⟨rfl, Or.inr ⟨hpc, hplace, ?_⟩⟩
      simp [rank, hpc, Pc5.place]
  | access hpc =>
      refine Or.inl ?_
      simp only [rank, hpc, St.goto3]
      split_ifs <;> simp only [Pc3.place] <;> omega
  | setpgidSelf hpc | setpgidChild hpc | mkfifo hpc | creat hpc | opened hpc _ | write hpc
  | close hpc | done hpc | openRead hpc _ | openedRead hpc _ | read hpc _ | setpgid hpc
  | doneRead hpc =>
      refine Or.inl ?_
      simp [rank, hpc, Pc3.place, Pc5.place]

/-- What is interrupted is the open of process 5. -/
theorem interrupted_of_step {a : Label} (hi : Inv P s) (h : (successful P).step s a s')
    (hpc : s.pc5 = .opening) (hplace : s.pc3.place < 5) (hfive : a.1.1 = .five) :
    isInterrupted a = true := by
  refine decide_eq_true ⟨hfive, fun hr => ?_⟩
  obtain ⟨⟨p, r⟩, e⟩ := a
  obtain rfl := hfive
  obtain rfl := hr
  have hidle : s.fifo.writer = .idle := by
    by_contra hne
    have hlt := hi.writer_ne.1 hne
    omega
  have hstep : process5 P s .ok = some (s', e) := h.1
  simp [process5, hpc, hidle] at hstep

/-- Process 3 can go on, unless it waits for process 5 to open the FIFO. -/
theorem exists_process3 (hi : Inv P s) (hne : s.pc3 ≠ .ended) :
    (∃ r, process3 P s .ok = some r) ∨ 3 < s.pc3.place ∧ s.pc5 = .open := by
  cases h : process3 P s .ok with
  | some r => exact Or.inl ⟨r, rfl⟩
  | none =>
      refine Or.inr ⟨?_, ?_⟩
      · cases hpc : s.pc3 with
        | setpgidSelf | mkfifo =>
            simp only [process3, hpc] at h
            split at h <;> simp at h
        | setpgidChild | access => simp [process3, hpc] at h
        | _ => decide
      · have hidle := reader_of_blocked hi ⟨hne, h⟩
        cases hpc : s.pc5 with
        | «open» => rfl
        | _ =>
            refine absurd hidle (hi.reader_ne.2 ?_)
            rw [hpc]
            decide

/-- Process 5 can go on after process 3 has written. -/
theorem exists_process5 (hi : Inv P s) (hsent : 6 < s.pc3.place) (hne : s.pc5.place < 4) :
    ∃ r, process5 P s .ok = some r := by
  cases hpc : s.pc5 with
  | «open» =>
      have hmet := hi.met (by omega)
      rw [hpc] at hmet
      exact absurd hmet (by decide)
  | opening =>
      have hw : s.fifo.writer ≠ .idle := hi.writer_ne.2 (by omega)
      exact ⟨_, by simp [process5, hpc, hw]; rfl⟩
  | read =>
      have hactive := hi.reader_active (by rw [hpc]; decide) (by rw [hpc]; decide)
      have hdata : s.fifo.data = message P := by
        rw [hi.data, if_pos ⟨hsent, by rw [hpc]; decide⟩]
      have htake : s.fifo.data.take 8 = message P := by
        rw [hdata]
        exact List.take_of_length_le (message_length P).le
      have heof := Fifo.perform_eof_of_ne (f := s.fifo) (hdata ▸ message_ne_nil P)
      have hread := Fifo.perform_read hactive (message_ne_nil P) (hdata ▸ List.prefix_rfl)
      exact ⟨_, by
        simp only [process5, hpc, reduceCtorEq, if_false, heof, Outcome.limit, htake, hread,
          Option.map_some]
        rfl⟩
  | setpgid =>
      simp only [process5, hpc]
      split <;> exact ⟨_, rfl⟩
  | after | ended =>
      rw [hpc] at hne
      exact absurd hne (by decide)

/-- **Some step comes nearer to the end**, as long as one of the two has something to do before its
last sleep. -/
theorem exists_next (hi : Inv P s) (h : s.pc3.place < 8 ∨ s.pc5.place < 4) :
    ∃ p s' e, next P s (p, .ok) = some (s', e) ∧ rank s' < rank s ∧
      (p = .three ∧ s.pc3.place < 8 ∨ p = .five ∧ s.pc5.place < 4) := by
  by_cases hthree : s.pc3.place < 8
  · have hne : s.pc3 ≠ .ended := by
      intro hpc
      rw [hpc] at hthree
      exact absurd hthree (by decide)
    rcases exists_process3 hi hne with ⟨⟨s', e⟩, hs⟩ | ⟨hplace, hpc⟩
    · refine ⟨.three, s', e, hs, ?_, Or.inl ⟨rfl, hthree⟩⟩
      exact (move_of_process3 hi hs).rank_lt.resolve_right fun hp => by cases hp.1
    · -- process 3 waits in its open, and process 5 finds the FIFO
      have hfound := hi.found hplace
      have hidle : s.fifo.reader = .idle := by
        rw [hi.reader, hpc]
        rfl
      refine ⟨.five, (s.pipe { s.fifo with reader := .active }).goto5 .opening, none, ?_, ?_,
        Or.inr ⟨rfl, ?_⟩⟩
      · simp [next, process5, hpc, hfound, Fifo.perform_openRead hidle]
      · simp [rank, hpc, Pc5.place]
      · rw [hpc]
        decide
  · have hfive := h.resolve_left hthree
    obtain ⟨⟨s', e⟩, hs⟩ := exists_process5 hi (by omega) hfive
    refine ⟨.five, s', e, hs, ?_, Or.inr ⟨rfl, hfive⟩⟩
    refine (move_of_process5 hi (Or.inl rfl) hs).rank_lt.resolve_right ?_
    rintro ⟨-, ⟨hpc, -⟩ | ⟨-, hplace, -⟩⟩
    · have hmet := hi.met (by omega)
      rw [hpc] at hmet
      exact absurd hmet (by decide)
    · omega

/-- Both processes have ended, and all three are in the group that process 3 leads. -/
structure Complete (P : Pids) (s : St) : Prop where
  three : s.pc3 = .ended
  five : s.pc5 = .ended
  group : ∀ p, s.pgid p = P.pid .three

theorem complete_of_ended (hi : Inv P s) (hthree : s.pc3 = .ended) (hfive : s.pc5 = .ended) :
    Complete P s := by
  refine ⟨hthree, hfive, fun p => ?_⟩
  cases p with
  | three => exact hi.leader (by rw [hthree]; decide)
  | four => exact hi.moved (by rw [hthree]; decide)
  | five => exact hi.joined (by rw [hfive]; decide)

/-- Unless both have ended, some step comes nearer to the end. -/
theorem exists_step (hi : Inv P s) (hnot : ¬ Complete P s) :
    ∃ a s', (successful P).step s a s' ∧ rank s' < rank s := by
  by_cases h : s.pc3.place < 8 ∨ s.pc5.place < 4
  · obtain ⟨p, s', e, hs, hlt, -⟩ := exists_next hi h
    exact ⟨((p, .ok), e), s', ⟨hs, Or.inl rfl⟩, hlt⟩
  · by_cases hthree : s.pc3 = .after
    · have hs : process3 P s .ok = some (s.exit3, none) := by simp [process3, hthree]
      refine ⟨((.three, .ok), none), _, ⟨hs, Or.inl rfl⟩, ?_⟩
      exact (move_of_process3 hi hs).rank_lt.resolve_right fun hp => by cases hp.1
    · by_cases hfive : s.pc5 = .after
      · have hs : process5 P s .ok = some (s.exit5, none) := by simp [process5, hfive]
        refine ⟨((.five, .ok), none), _, ⟨hs, Or.inl rfl⟩, ?_⟩
        refine (move_of_process5 hi (Or.inl rfl) hs).rank_lt.resolve_right ?_
        rintro ⟨-, ⟨hpc, -⟩ | ⟨hpc, -⟩⟩ <;> cases hfive.symm.trans hpc
      · refine absurd (complete_of_ended hi ?_ ?_) hnot
        · cases hpc : s.pc3 <;> simp_all [Pc3.place]
        · cases hpc : s.pc5 <;> simp_all [Pc5.place]

/-- A step that changes something is paid for, by the rank or by the open that is interrupted. -/
theorem pays (P : Pids) :
    (successful P).active.Pays rank fun a => if isInterrupted a then 2 else 0 := by
  rintro as s a s' hr ⟨hs, hne⟩
  have hi := inv hr.of_active
  rcases (move_of_step hi hs).rank_lt with hlt | ⟨hfive, ⟨-, heq⟩ | ⟨hpc, hplace, hrank⟩⟩
  · omega
  · exact absurd heq.symm hne
  · have hgrant : (if isInterrupted a then 2 else 0) = 2 :=
      if_pos (interrupted_of_step hi hs hpc hplace hfive)
    show rank s' + 1 ≤ rank s + if isInterrupted a then 2 else 0
    omega

end GroupHandover
