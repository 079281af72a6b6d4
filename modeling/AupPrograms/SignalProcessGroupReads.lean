/-
**Who uses a process group id that has not been received** (`assignment_8/signal_process_group.c`).

Process 5 stores in the shared word what is in its local variable after its read, and process 0
signals the group that it finds there.  When the read does not fail, that is the id that process 3
has written into the FIFO.

Here every call of the processes may fail or be short, and the alarm may come.

Main definitions:

* `SignalProcessGroup.Step0` — what a step of process 0 can do;
* `SignalProcessGroup.Received` — what holds in all runs in which the read does not fail;
* `SignalProcessGroup.reading` — these runs;
* `SignalProcessGroup.ReadFirst`, `SignalProcessGroup.SignalsWritten` — the id is not used before it
  is read, and the signal goes to the group whose id was written.

Main results:

* `SignalProcessGroup.received` — what is used has been received;
* `SignalProcessGroup.received_first` — **in which runs nobody uses an id that he has not
  received.**
-/

import AupPrograms.GroupHandoverReads
import AupPrograms.SignalProcessGroup

set_option relaxedAutoImplicit false
set_option autoImplicit false

namespace SignalProcessGroup

open GroupHandover (Member Pids message process3 process5)
open Syscall (Outcome)

/-! ### What a step of process 0 can do -/

/-- **What a step of process 0 can do**, whatever its calls do. -/
inductive Step0 (s : St) : Option Event → St → Prop
  | signalAlrm : s.pc0 = .signalAlrm → Step0 s none (s.goto0 .alarm)
  | refused : s.pc0 = .signalAlrm → Step0 s none (s.goto0 .ended)
  | alarm : s.pc0 = .alarm → Step0 s none ({ s with armed := true }.goto0 .poll)
  | poll : s.pc0 = .poll → Step0 s none (s.goto0 .poll)
  | found : s.pc0 = .poll → s.word ≠ -1 → Step0 s none (s.goto0 .alarmOff)
  | alarmOff : s.pc0 = .alarmOff → Step0 s none ({ s with armed := false }.goto0 .check)
  | giveUp : s.pc0 = .check → Step0 s (some .gaveUp) (s.goto0 .gaveUp)
  | pass : s.pc0 = .check → s.word ≠ -2 → Step0 s none (s.goto0 .print)
  | print : s.pc0 = .print → Step0 s none (s.goto0 .kill)
  | kill (vs : List Member) : s.pc0 = .kill → Step0 s
      (some (.kill s.word (CInt.wrap 4 (-s.word)) vs)) ((vs.foldl St.exit s).goto0 .munmap)
  | failed : s.pc0 = .kill →
      Step0 s (some (.kill s.word (CInt.wrap 4 (-s.word)) [])) (s.goto0 .ended)
  | munmap : s.pc0 = .munmap → Step0 s none (s.goto0 .ended)

theorem step0_of_process0 {P : Pids} {s s' : St} {r : Outcome} {e : Option Event}
    (h : process0 P s r = some (s', e)) : Step0 s e s' := by
  unfold process0 at h
  cases hpc : s.pc0 with
  | signalAlrm =>
      rw [hpc] at h
      obtain ⟨rfl, rfl⟩ := Prod.mk.inj (Option.some.inj h)
      split
      · exact .signalAlrm hpc
      · exact .refused hpc
  | alarm =>
      rw [hpc] at h
      cases h
      exact .alarm hpc
  | poll =>
      rw [hpc] at h
      obtain ⟨rfl, rfl⟩ := Prod.mk.inj (Option.some.inj h)
      split
      · exact .poll hpc
      · exact .found hpc ‹_›
  | alarmOff =>
      rw [hpc] at h
      cases h
      exact .alarmOff hpc
  | check =>
      rw [hpc] at h
      dsimp only at h
      split at h
      · cases h
        exact .giveUp hpc
      · cases h
        exact .pass hpc ‹_›
  | print =>
      rw [hpc] at h
      cases h
      exact .print hpc
  | kill =>
      rw [hpc] at h
      dsimp only at h
      split at h
      · cases h
        exact .kill _ hpc
      · cases h
        exact .failed hpc
  | munmap =>
      rw [hpc] at h
      cases h
      exact .munmap hpc
  | gaveUp | ended =>
      rw [hpc] at h
      cases h

/-! ### The shared word -/

/-- **What holds when the read of process 5 does not fail.** -/
structure Received (P : Pids) (got wrote : Prop) (s : St) : Prop where
  base : GroupHandover.Received P got wrote s.base
  /-- Only process 5 stores. -/
  stores : ∀ p, s.tail p = .store → p = .five
  word : s.word = -1 ∨ s.word = -2 ∨ s.word = P.pid .three ∧ got ∧ wrote
  /-- No alarm comes before `alarm(5)` or after `alarm(0)`. -/
  armed : s.armed = true → s.pc0 = .poll ∨ s.pc0 = .alarmOff
  polled : 2 < s.pc0.place → s.pc0.place < 7 → s.word ≠ -1
  /-- Between the check and the signal the word is a group id. -/
  checked : 4 < s.pc0.place → s.pc0.place < 7 → s.word ≠ -2

theorem received_of_init {P : Pids} {s : St} (h : Init P s) (got wrote : Prop) :
    Received P got wrote s := by
  have hi := inv_of_init h
  have hpc : s.pc0.place = 0 := by rw [h.pc0]; rfl
  constructor
  case base => exact GroupHandover.received_of_init h.base got wrote
  case stores => exact hi.stores
  case word => exact Or.inl h.word
  case armed => exact hi.armed
  case polled => exact fun hlt => absurd hlt (by omega)
  case checked => exact fun hlt => absurd hlt (by omega)

section

variable {P : Pids} {got wrote : Prop} {s s' : St}

theorem Received.mono (hi : Received P got wrote s) {got' wrote' : Prop} (hg : got → got')
    (hw : wrote → wrote') : Received P got' wrote' s :=
  { hi with
    base := hi.base.mono hg hw
    word := hi.word.imp_right (Or.imp_right (And.imp_right (And.imp hg hw))) }

/-- A member of the group may end at any time. -/
theorem Received.exit (hi : Received P got wrote s) (p : Member) :
    Received P got wrote (s.exit p) where
  base := by
    cases p with
    | three => exact hi.base.exit3
    | four => exact hi.base
    | five => exact hi.base.exit5
  stores q hq := hi.stores q (exit_tail hq)
  word := hi.word
  armed := hi.armed
  polled := hi.polled
  checked := hi.checked

theorem Received.exits (hi : Received P got wrote s) (vs : List Member) :
    Received P got wrote (vs.foldl St.exit s) ∧ (vs.foldl St.exit s).pc0 = s.pc0 := by
  induction vs generalizing s with
  | nil => exact ⟨hi, rfl⟩
  | cons p vs ih => exact ih (hi.exit p)

/-- Process 0 moves on; the program point says what is known of the alarm and of the word. -/
theorem Received.goto0 (hi : Received P got wrote s) {pc : Pc0} (b : Bool)
    (harmed : b = true → pc = .poll ∨ pc = .alarmOff)
    (hpolled : 2 < pc.place → pc.place < 7 → s.word ≠ -1)
    (hchecked : 4 < pc.place → pc.place < 7 → s.word ≠ -2) :
    Received P got wrote ({ s with armed := b }.goto0 pc) :=
  ⟨hi.base, hi.stores, hi.word, harmed, hpolled, hchecked⟩

/-- Process 0 moves on while no alarm is to come. -/
theorem Received.goto0_off (hi : Received P got wrote s) {pc : Pc0} (h₁ : s.pc0 ≠ .poll)
    (h₂ : s.pc0 ≠ .alarmOff) (hpolled : 2 < pc.place → pc.place < 7 → s.word ≠ -1)
    (hchecked : 4 < pc.place → pc.place < 7 → s.word ≠ -2) :
    Received P got wrote (s.goto0 pc) :=
  hi.goto0 s.armed (fun h => by rcases hi.armed h with hpc | hpc <;> contradiction) hpolled hchecked

/-- A member of the group goes on after the hand-over. -/
theorem Received.onward (hi : Received P got wrote s) (p : Member) {t : Tail} (ht : t ≠ .store) :
    Received P got wrote (s.onward p t) := by
  refine ⟨hi.base, fun q hq => ?_, hi.word, hi.armed, hi.polled, hi.checked⟩
  rcases eq_or_ne q p with rfl | hne
  · exact absurd (by simpa [St.onward] using hq) ht
  · exact hi.stores q (by simpa [St.onward, Function.update_of_ne hne] using hq)

/-- A step of the hand-over keeps the rest. -/
theorem Received.handover (hi : Received P got wrote s) {got' wrote' : Prop} {b : GroupHandover.St}
    (hb : GroupHandover.Received P got' wrote' b) (hg : got → got') (hw : wrote → wrote') :
    Received P got' wrote' { s with base := b } :=
  { hi.mono hg hw with base := hb }

/-- **The steps of process 0**, whatever its calls do. -/
theorem Received.process0 (hi : Received P got wrote s) {r : Outcome} {e : Option Event}
    (h : process0 P s r = some (s', e)) : Received P got wrote s' := by
  -- where nothing is known of the word, and where it is not used any more
  have hearly : ∀ {pc : Pc0}, pc.place < 3 → 2 < pc.place → pc.place < 7 → s.word ≠ -1 :=
    fun hlo hhi => absurd hhi (by omega)
  have hlate : ∀ {n : ℕ} {pc : Pc0} {w : ℤ}, 6 < pc.place → n < pc.place → pc.place < 7 →
      s.word ≠ w := fun hlo _ hhi => absurd hhi (by omega)
  cases step0_of_process0 h with
  | signalAlrm hpc =>
      exact hi.goto0_off (by simp [hpc]) (by simp [hpc]) (hearly (by decide))
        fun hlt => absurd hlt (by decide)
  | alarm _ =>
      exact hi.goto0 true (fun _ => Or.inl rfl) (hearly (by decide))
        fun hlt => absurd hlt (by decide)
  | poll _ =>
      exact hi.goto0 s.armed (fun _ => Or.inl rfl) (hearly (by decide))
        fun hlt => absurd hlt (by decide)
  | found _ hword =>
      exact hi.goto0 s.armed (fun _ => Or.inr rfl) (fun _ _ => hword)
        fun hlt => absurd hlt (by decide)
  | alarmOff hpc =>
      have hword := hi.polled (by rw [hpc]; decide) (by rw [hpc]; decide)
      exact hi.goto0 false (fun h => by cases h) (fun _ _ => hword)
        fun hlt => absurd hlt (by decide)
  | pass hpc hcheck =>
      have hword := hi.polled (by rw [hpc]; decide) (by rw [hpc]; decide)
      exact hi.goto0_off (by simp [hpc]) (by simp [hpc]) (fun _ _ => hword) fun _ _ => hcheck
  | print hpc =>
      have hword := hi.polled (by rw [hpc]; decide) (by rw [hpc]; decide)
      have hcheck := hi.checked (by rw [hpc]; decide) (by rw [hpc]; decide)
      exact hi.goto0_off (by simp [hpc]) (by simp [hpc]) (fun _ _ => hword) fun _ _ => hcheck
  | kill vs hpc =>
      obtain ⟨hi', hpc'⟩ := hi.exits vs
      exact hi'.goto0_off (by simp [hpc', hpc]) (by simp [hpc', hpc])
        (fun _ hlt => absurd hlt (by decide)) fun _ hlt => absurd hlt (by decide)
  | giveUp hpc | refused hpc | failed hpc | munmap hpc =>
      exact hi.goto0_off (by simp [hpc]) (by simp [hpc]) (hlate (by decide)) (hlate (by decide))

/-- **The steps of a member of the group after the hand-over.** -/
theorem Received.afterwards (hi : Received P got wrote s) {p : Member}
    (hdone : p = .five → s.base.pc5 = .after) {r : Outcome} {e : Option Event}
    (h : afterwards s p r = some (s', e)) : Received P got wrote s' := by
  unfold SignalProcessGroup.afterwards at h
  cases htail : s.tail p with
  | store =>
      obtain rfl := hi.stores p htail
      have hpc := hdone rfl
      obtain ⟨hlocal, hg, hw⟩ := hi.base.received (by simp [hpc, GroupHandover.Pc5.place])
        (by simp [hpc, GroupHandover.Pc5.place])
      have hvalue : CInt.ofBytes s.base.pgid_3 = P.pid .three := by
        rw [hlocal, GroupHandover.ofBytes_message]
      have hpos := P.pos .three
      rw [htail] at h
      obtain ⟨rfl, rfl⟩ := Prod.mk.inj (Option.some.inj h)
      have hstore : Received P got wrote { s with word := CInt.ofBytes s.base.pgid_3 } :=
        { hi with
          word := Or.inr (Or.inr ⟨hvalue, hg, hw⟩)
          polled := fun _ _ => by simp only [hvalue]; omega
          checked := fun _ _ => by simp only [hvalue]; omega }
      exact hstore.onward .five (by decide)
  | signal =>
      rw [htail] at h
      obtain ⟨rfl, rfl⟩ := Prod.mk.inj (Option.some.inj h)
      split
      · exact hi.onward p (by decide)
      · exact hi.exit p
  | sleep =>
      rw [htail] at h
      obtain ⟨rfl, rfl⟩ := Prod.mk.inj (Option.some.inj h)
      exact hi.exit p
  | ended =>
      rw [htail] at h
      cases h

/-- SIGALRM comes. -/
theorem Received.alarmed (hi : Received P got wrote s) (harmed : s.armed = true) :
    Received P got wrote { s with word := -2, armed := false } := by
  have hplace : ¬ 4 < s.pc0.place := by
    rcases hi.armed harmed with hpc | hpc <;> simp [hpc, Pc0.place]
  have hword : (-2 : ℤ) ≠ -1 := by decide
  exact ⟨hi.base, hi.stores, Or.inr (Or.inl rfl), fun h => (by cases h), fun _ _ => hword,
    fun hlt => absurd hlt hplace⟩

end

/-! ### The runs in which the read does not fail -/

/-- The step is not a failing read of process 5. -/
def Reads (s : St) (a : Label) : Prop := a.1 = .member .five .fail → s.base.pc5 ≠ .read

/-- **The runs in which the read of process 5 does not fail.**  Any other call may. -/
def reading (P : Pids) : Lts St Label := (system P).restrict Reads

/-- The labels say that process 5 has read eight bytes. -/
def Got (as : List Label) : Prop := ∃ a ∈ as, a.2 = some (.handover (.read 8))

/-- The labels say that process 3 has written the whole group id. -/
def Wrote (P : Pids) (as : List Label) : Prop :=
  ∃ a ∈ as, a.2 = some (.handover (.write (message P)))

theorem got_snoc (as : List Label) (c : Choice) (e : Option Event) :
    Got (as ++ [(c, e)]) ↔ Got as ∨ e = some (.handover (.read 8)) := by
  simp [Got, or_and_right, exists_or]

theorem wrote_snoc (P : Pids) (as : List Label) (c : Choice) (e : Option Event) :
    Wrote P (as ++ [(c, e)]) ↔ Wrote P as ∨ e = some (.handover (.write (message P))) := by
  simp [Wrote, or_and_right, exists_or]

/-- What a member of the group does: a step of the hand-over, or one after it. -/
theorem member_cases {P : Pids} {s s' : St} {p : Member} {r : Outcome} {e : Option Event}
    (h : member P s p r = some (s', e)) :
    (∃ b e', GroupHandover.next P s.base (p, r) = some (b, e') ∧ s' = { s with base := b } ∧
      e = e'.map .handover) ∨
    (p = .five → s.base.pc5 = .after) ∧ afterwards s p r = some (s', e) := by
  unfold member at h
  cases p with
  | three =>
      dsimp only at h
      split at h
      · exact Or.inr ⟨fun h => (by cases h), h⟩
      · obtain ⟨⟨b, e'⟩, hb, heq⟩ := Option.map_eq_some_iff.1 h
        obtain ⟨rfl, rfl⟩ := Prod.mk.inj heq
        exact Or.inl ⟨b, e', hb, rfl, rfl⟩
  | four => exact Or.inr ⟨fun h => (by cases h), h⟩
  | five =>
      dsimp only at h
      split at h
      · exact Or.inr ⟨fun _ => ‹_›, h⟩
      · obtain ⟨⟨b, e'⟩, hb, heq⟩ := Option.map_eq_some_iff.1 h
        obtain ⟨rfl, rfl⟩ := Prod.mk.inj heq
        exact Or.inl ⟨b, e', hb, rfl, rfl⟩

/-- **What is used has been received**, by process 5 and by process 0. -/
theorem received {P : Pids} {as : List Label} {s : St} (h : (reading P).Exec as s) :
    Received P (Got as) (Wrote P as) s := by
  refine Lts.Exec.invariant (I := fun as s => Received P (Got as) (Wrote P as) s) ?_ ?_ h
  · intro s hs
    exact received_of_init hs _ _
  · rintro as s ⟨c, e⟩ s' - hi ⟨hs, hreads⟩
    have hgot : Got as → Got (as ++ [(c, e)]) := fun hg => (got_snoc as c e).2 (Or.inl hg)
    have hwrote : Wrote P as → Wrote P (as ++ [(c, e)]) :=
      fun hw => (wrote_snoc P as c e).2 (Or.inl hw)
    cases c with
    | zero r => exact (hi.process0 hs).mono hgot hwrote
    | member p r =>
        rcases member_cases hs with ⟨b, e', hb, rfl, rfl⟩ | ⟨hdone, hafter⟩
        · cases p with
          | three =>
              refine hi.handover ((hi.base.process3 hb).mono hgot ?_) hgot hwrote
              rintro (hw | rfl)
              · exact hwrote hw
              · exact (wrote_snoc P as _ _).2 (Or.inr rfl)
          | four => cases hb
          | five =>
              have hread : s.base.pc5 = .read → r ≠ .fail :=
                fun hpc hfail => hreads (by rw [hfail]) hpc
              refine hi.handover ((hi.base.process5 hread hb).mono ?_ hwrote) hgot hwrote
              rintro (hg | rfl)
              · exact hgot hg
              · exact (got_snoc as _ _).2 (Or.inr rfl)
        · exact (hi.afterwards hdone hafter).mono hgot hwrote
    | sigalrm =>
        obtain ⟨harmed, heq⟩ := Option.ite_none_right_eq_some.1 hs
        obtain ⟨rfl, rfl⟩ := Prod.mk.inj (Option.some.inj heq)
        exact (hi.alarmed harmed).mono hgot hwrote

/-- A step in which process 5 uses the group id. -/
def UsesId (a : Label) : Prop :=
  (∃ p pgid, a.2 = some (.handover (.setpgid .five p pgid))) ∨ ∃ value, a.2 = some (.stored value)

/-- **Process 5 calls `setpgid` or stores in the shared word only after its read has returned eight
bytes.** -/
def ReadFirst (as : List Label) : Prop := ∀ xs a ys, as = xs ++ a :: ys → UsesId a → Got xs

/-- **Process 0 sends SIGUSR1 only to the group whose id has been written into the FIFO.** -/
def SignalsWritten (as : List Label) : Prop :=
  ∀ xs a ys, as = xs ++ a :: ys → ∀ value target vs, a.2 = some (.kill value target vs) →
    ∃ b ∈ xs, ∃ bytes, b.2 = some (.handover (.write bytes)) ∧ bytes.length = 8 ∧
      target = -CInt.ofBytes bytes

/-- What can be seen of process 0. -/
theorem event_of_process0 {P : Pids} {s s' : St} {r : Outcome} {e : Option Event}
    (h : process0 P s r = some (s', e)) :
    e = none ∨ e = some .gaveUp ∨
      s.pc0 = .kill ∧ ∃ vs, e = some (.kill s.word (CInt.wrap 4 (-s.word)) vs) := by
  cases step0_of_process0 h with
  | kill vs hpc => exact Or.inr (Or.inr ⟨hpc, vs, rfl⟩)
  | failed hpc => exact Or.inr (Or.inr ⟨hpc, [], rfl⟩)
  | giveUp _ => exact Or.inr (Or.inl rfl)
  | _ => exact Or.inl rfl

/-- What can be seen of a member of the group after the hand-over. -/
theorem event_of_afterwards {s s' : St} {p : Member} {r : Outcome} {e : Option Event}
    (h : afterwards s p r = some (s', e)) :
    e = none ∨ s.tail p = .store ∧ ∃ value, e = some (.stored value) := by
  unfold afterwards at h
  cases htail : s.tail p with
  | store =>
      rw [htail] at h
      cases h
      exact Or.inr ⟨rfl, _, rfl⟩
  | signal | sleep =>
      rw [htail] at h
      cases h
      exact Or.inl rfl
  | ended =>
      rw [htail] at h
      cases h

/-- Process 5 uses a group id that it has received. -/
theorem Received.of_usesId {P : Pids} {got wrote : Prop} {s s' : St} {c : Choice}
    {e : Option Event} (hi : Received P got wrote s) (h : next P s c = some (s', e))
    (huse : UsesId (c, e)) : got := by
  cases c with
  | zero r =>
      rcases event_of_process0 h with rfl | rfl | ⟨-, vs, rfl⟩ <;>
        rcases huse with ⟨p, pgid, he⟩ | ⟨value, he⟩ <;> cases he
  | member p r =>
      rcases member_cases h with ⟨b, e', hb, rfl, rfl⟩ | ⟨hdone, hafter⟩
      · rcases huse with ⟨q, pgid, he⟩ | ⟨value, he⟩
        · obtain ⟨e', rfl, he'⟩ := Option.map_eq_some_iff.1 he
          cases he'
          cases p with
          | three => cases GroupHandover.caller_of_process3 hb
          | four => cases hb
          | five =>
              have hpc := GroupHandover.pc5_of_process5 hb
              exact (hi.base.received (by simp [hpc, GroupHandover.Pc5.place])
                (by simp [hpc, GroupHandover.Pc5.place])).2.1
        · obtain ⟨e', rfl, he'⟩ := Option.map_eq_some_iff.1 he
          cases he'
      · rcases event_of_afterwards hafter with rfl | ⟨htail, value', rfl⟩
        · rcases huse with ⟨q, pgid, he⟩ | ⟨value, he⟩ <;> cases he
        · have hpc := hdone (hi.stores p htail)
          exact (hi.base.received (by simp [hpc, GroupHandover.Pc5.place])
            (by simp [hpc, GroupHandover.Pc5.place])).2.1
  | sigalrm =>
      obtain ⟨-, heq⟩ := Option.ite_none_right_eq_some.1 h
      obtain ⟨rfl, rfl⟩ := Prod.mk.inj (Option.some.inj heq)
      rcases huse with ⟨p, pgid, he⟩ | ⟨value, he⟩ <;> cases he

/-- The signal goes to a group whose id has been written. -/
theorem Received.of_kill {P : Pids} {got wrote : Prop} {s s' : St} {c : Choice}
    {value target : ℤ} {vs : List Member} (hi : Received P got wrote s)
    (h : next P s c = some (s', some (.kill value target vs))) :
    target = -P.pid .three ∧ wrote := by
  cases c with
  | zero r =>
      rcases event_of_process0 h with he | he | ⟨hpc, vs', he⟩
      · cases he
      · cases he
      · cases he
        have hne := hi.polled (by rw [hpc]; decide) (by rw [hpc]; decide)
        have hne' := hi.checked (by rw [hpc]; decide) (by rw [hpc]; decide)
        obtain ⟨hword, -, hw⟩ := (hi.word.resolve_left hne).resolve_left hne'
        have hpos := P.pos .three
        have hlt := P.lt .three
        exact ⟨by rw [hword, CInt.wrap_eq_self (by omega) (by omega)], hw⟩
  | member p r =>
      rcases member_cases h with ⟨b, e', hb, -, he⟩ | ⟨-, hafter⟩
      · obtain ⟨e'', -, he''⟩ := Option.map_eq_some_iff.1 he.symm
        cases he''
      · rcases event_of_afterwards hafter with he | ⟨-, value', he⟩ <;> cases he
  | sigalrm =>
      obtain ⟨-, heq⟩ := Option.ite_none_right_eq_some.1 h
      cases heq

theorem readFirst {P : Pids} {as : List Label} {s : St} (h : (reading P).Exec as s) :
    ReadFirst as := by
  refine h.forall_splits ?_
  rintro as s ⟨c, e⟩ s' hr ⟨hs, -⟩ huse
  exact (received hr).of_usesId hs huse

theorem signalsWritten {P : Pids} {as : List Label} {s : St} (h : (reading P).Exec as s) :
    SignalsWritten as := by
  refine h.forall_splits ?_
  rintro as s ⟨c, e⟩ s' hr ⟨hs, -⟩ value target vs rfl
  obtain ⟨htarget, b, hb, hwrote⟩ := (received hr).of_kill hs
  refine ⟨b, hb, message P, hwrote, GroupHandover.message_length P, ?_⟩
  rw [htarget, GroupHandover.ofBytes_message]

/-! ### The runs in which it fails -/

theorem place_of_exits (s : St) (vs : List Member) :
    s.base.pc5.place ≤ (vs.foldl St.exit s).base.pc5.place := by
  induction vs generalizing s with
  | nil => exact le_refl _
  | cons p vs ih => exact (place_le_exit s p).trans (ih (s.exit p))

theorem place_of_process0 {P : Pids} {s s' : St} {r : Outcome} {e : Option Event}
    (h : process0 P s r = some (s', e)) : s.base.pc5.place ≤ s'.base.pc5.place := by
  cases step0_of_process0 h with
  | kill vs _ => exact place_of_exits s vs
  | _ => exact le_refl _

theorem place_of_afterwards {s s' : St} {p : Member} {r : Outcome} {e : Option Event}
    (h : afterwards s p r = some (s', e)) : s.base.pc5.place ≤ s'.base.pc5.place := by
  unfold afterwards at h
  cases htail : s.tail p with
  | store =>
      rw [htail] at h
      cases h
      exact le_refl _
  | signal =>
      rw [htail] at h
      cases h
      split
      · exact le_refl _
      · exact place_le_exit s p
  | sleep =>
      rw [htail] at h
      cases h
      exact place_le_exit s p
  | ended =>
      rw [htail] at h
      cases h

/-- Process 5 reads once. -/
theorem place_of_got {P : Pids} {as : List Label} {s : St} (h : (system P).Exec as s)
    (hgot : Got as) : 2 < s.base.pc5.place := by
  refine Lts.Exec.invariant (I := fun as s => Got as → 2 < s.base.pc5.place) ?_ ?_ h hgot
  · rintro s - ⟨a, ha, -⟩
    cases ha
  · rintro as s ⟨c, e⟩ s' - ih hs hg
    have hread := ((got_snoc as c e).1 hg).imp_left ih
    cases c with
    | zero r =>
        refine lt_of_lt_of_le (hread.resolve_right ?_) (place_of_process0 hs)
        rcases event_of_process0 hs with rfl | rfl | ⟨-, vs, rfl⟩ <;> simp
    | member p r =>
        rcases member_cases hs with ⟨b, e', hb, rfl, rfl⟩ | ⟨-, hafter⟩
        · have hread' : 2 < s.base.pc5.place ∨ e' = some (.read 8) := by
            refine hread.imp_right fun he => ?_
            obtain ⟨e'', rfl, he''⟩ := Option.map_eq_some_iff.1 he
            cases he''
            rfl
          cases p with
          | three =>
              obtain ⟨hpc, he⟩ := GroupHandover.pc5_of_process3 hb
              change 2 < b.pc5.place
              rw [hpc]
              exact hread'.resolve_right he
          | four => cases hb
          | five => exact GroupHandover.place_of_process5 hb hread'
        · refine lt_of_lt_of_le (hread.resolve_right ?_) (place_of_afterwards hafter)
          rcases event_of_afterwards hafter with rfl | ⟨-, value, rfl⟩ <;> simp
    | sigalrm =>
        obtain ⟨-, heq⟩ := Option.ite_none_right_eq_some.1 hs
        cases heq
        exact hread.resolve_right (by simp)

/-- **After a read that fails process 5 goes on to its `setpgid`.** -/
theorem not_readFirst {P : Pids} {as : List Label} {s s' : St} {a : Label}
    (h : (system P).Exec as s) (hs : (system P).step s a s') (hfail : ¬ Reads s a) :
    ∃ bs s'', (system P).Run s' bs s'' ∧ ¬ ReadFirst (as ++ a :: bs) := by
  obtain ⟨c, e⟩ := a
  simp only [Reads, Classical.not_imp, not_not] at hfail
  obtain ⟨rfl, hpc⟩ := hfail
  have hgoto : s' = { s with base := s.base.goto5 .setpgid } ∧
      e = some (.handover (.read (-1))) := by
    have hstep : member P s .five .fail = some (s', e) := hs
    have hread : process5 P s.base .fail
        = some (s.base.goto5 .setpgid, some (.read (-1))) := by
      unfold GroupHandover.process5
      rw [hpc]
      rfl
    have hbefore : s.base.pc5 ≠ .after := by simp [hpc]
    simp only [member, if_neg hbefore, hread] at hstep
    cases hstep
    exact ⟨rfl, rfl⟩
  obtain ⟨rfl, rfl⟩ := hgoto
  obtain ⟨b, pgid, hset⟩ :=
    GroupHandover.process5_setpgid P (s := s.base.goto5 .setpgid) rfl .ok
  have hmember : member P { s with base := s.base.goto5 .setpgid } .five .ok
      = some ({ s with base := b }, some (.handover (.setpgid .five .five pgid))) := by
    have hbefore : (s.base.goto5 .setpgid).pc5 ≠ .after := by simp
    simp only [member, if_neg hbefore, hset]
    rfl
  have hnext : (system P).step { s with base := s.base.goto5 .setpgid }
      (.member .five .ok, some (.handover (.setpgid .five .five pgid))) { s with base := b } :=
    hmember
  refine ⟨_, _, Lts.Run.single hnext, fun hfirst => ?_⟩
  have hgot := hfirst (as ++ [_]) _ [] (by rw [List.append_assoc]; rfl) (Or.inl ⟨_, _, rfl⟩)
  rcases (got_snoc as _ _).1 hgot with hbefore | he
  · have hplace := place_of_got h hbefore
    rw [hpc] at hplace
    exact absurd hplace (by decide)
  · cases he

/-- **Nobody uses an id that he has not received**, in either program, in the runs in which the read
of process 5 does not fail: process 5 calls `setpgid` or stores only after its read has returned
eight bytes, and process 0 signals only the group whose id has been written into the FIFO.  When the
read fails, process 5 can go on to a call of `setpgid` without it. -/
theorem received_first (P : Pids) :
    (∀ as s, (GroupHandover.reading P).Exec as s → GroupHandover.ReadFirst as) ∧
    (∀ as s, (reading P).Exec as s → ReadFirst as ∧ SignalsWritten as) ∧
    (∀ as s a s', (GroupHandover.system P).Exec as s → (GroupHandover.system P).step s a s' →
      ¬ GroupHandover.Reads s a →
        ∃ bs s'', (GroupHandover.system P).Run s' bs s'' ∧
          ¬ GroupHandover.ReadFirst (as ++ a :: bs)) ∧
    (∀ as s a s', (system P).Exec as s → (system P).step s a s' → ¬ Reads s a →
      ∃ bs s'', (system P).Run s' bs s'' ∧ ¬ ReadFirst (as ++ a :: bs)) := by
  refine ⟨?_, ?_, ?_, ?_⟩
  · intro as s h
    exact GroupHandover.readFirst h
  · intro as s h
    exact ⟨readFirst h, signalsWritten h⟩
  · intro as s a s' h hs hfail
    exact GroupHandover.not_readFirst h hs hfail
  · intro as s a s' h hs hfail
    exact not_readFirst h hs hfail

/-- A start in which the local variable of process 5 happens to hold 77. -/
def startedWith77 : St :=
  { started with base := { GroupHandover.started with pgid_3 := CInt.bytes 8 77 } }

/-- Processes 3 and 5 come to the read of process 5, which fails; then process 5 stores 77, and
process 0 signals the group 77. -/
def failing : List Choice :=
  GroupHandover.choices.dropLast.map (fun c => .member c.1 c.2) ++
    .member .five .fail :: List.replicate 2 (.member .five .ok) ++ List.replicate 7 (.zero .ok)

theorem init_startedWith77 : Init GroupHandover.pids startedWith77 :=
  ⟨⟨rfl, rfl, rfl, rfl, rfl⟩, rfl, rfl, rfl, rfl⟩

/-- The bytes that process 3 writes. -/
def written : Option Event → Option (List UInt8)
  | some (.handover (.write bytes)) => some bytes
  | _ => none

/-- **The read fails, and process 0 signals a group whose id nobody has written.** -/
theorem signals_unwritten :
    ¬ ∀ P as s, (system P).Exec as s → ReadFirst as ∧ SignalsWritten as := by
  intro hall
  have h : (Lts.perform (next GroupHandover.pids) startedWith77 failing).map
      (fun r => (r.2.getLast?, r.2.filterMap written))
        = some (some (some (.kill 77 (-77) [.five])), [message GroupHandover.pids]) := by rfl
  obtain ⟨⟨s, es⟩, hperform, heq⟩ := Option.map_eq_some_iff.1 h
  obtain ⟨hlast, hwritten⟩ := Prod.mk.inj heq
  obtain ⟨hrun, hlen⟩ : (system GroupHandover.pids).Run startedWith77 (failing.zip es) s ∧
      es.length = failing.length := Lts.run_of_perform hperform
  obtain ⟨es', rfl⟩ := List.getLast?_eq_some_iff.1 hlast
  obtain ⟨cs, c, hcs⟩ : ∃ cs c, failing = cs ++ [c] :=
    ⟨failing.dropLast, .zero .ok, rfl⟩
  have hlen' : cs.length = es'.length := by
    rw [hcs, List.length_append, List.length_append] at hlen
    simpa using hlen.symm
  have hsplit : failing.zip (es' ++ [some (.kill 77 (-77) [.five])])
      = cs.zip es' ++ (c, some (.kill 77 (-77) [.five])) :: [] := by
    rw [hcs, List.zip_append hlen']
    rfl
  obtain ⟨-, hsignals⟩ := hall _ _ s ⟨_, init_startedWith77, hrun⟩
  obtain ⟨b, hb, bytes, hbytes, -, htarget⟩ := hsignals _ _ _ hsplit _ _ _ rfl
  have hmem : bytes ∈ [message GroupHandover.pids] := by
    rw [← hwritten]
    refine List.mem_filterMap.2 ⟨b.2, List.mem_append_left _ (List.of_mem_zip hb).2, ?_⟩
    rw [hbytes]
    rfl
  rw [List.mem_singleton.1 hmem, GroupHandover.ofBytes_message] at htarget
  exact absurd htarget (by decide)

end SignalProcessGroup
