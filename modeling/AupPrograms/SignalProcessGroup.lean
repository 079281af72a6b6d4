/-
**Signalling a process group whose id comes through shared memory**
(`assignment_8/signal_process_group.c`).

The processes 3, 4 and 5 form a group as in `GroupHandover`.  Process 5 then stores the id of the
group in a word that it shares with process 0, and each of the three installs a handler for SIGUSR1.
Process 0 waits until the word is no longer -1, for five seconds at most: the handler of SIGALRM
stores -2 in the same word.  Then it reads the word twice more, to see whether it is -2 and to pass
it to `kill`.

The word has two writers besides process 0, and process 0 reads it at three places; what is still
possible to be written at each of them is `SignalProcessGroup.Inv`.

Main definitions:

* `SignalProcessGroup.St`, `SignalProcessGroup.next` — the four processes and the alarm;
* `SignalProcessGroup.successful` — the runs in which calls succeed;
* `SignalProcessGroup.Move`, `SignalProcessGroup.Inv` — what a step can be, and what holds along
  these runs.

Main results:

* `SignalProcessGroup.inv` — the invariant;
* `SignalProcessGroup.right_target` — **the signal goes to the group of process 3 and nowhere
  else.**
-/

import AupPrograms.GroupHandover

set_option relaxedAutoImplicit false
set_option autoImplicit false

namespace SignalProcessGroup

open GroupHandover (Member Pids message process3 process5)
open Syscall (Outcome)

/-! ### The processes and the shared word -/

/-- Where process 0 is. -/
inductive Pc0
  | signalAlrm
  | alarm
  | poll
  | alarmOff
  | check
  | print
  | kill
  | munmap
  | gaveUp
  | ended
  deriving DecidableEq

/-- Where a member of the group is after the hand-over. -/
inductive Tail
  | store
  | signal
  | sleep
  | ended
  deriving DecidableEq

/-- What can be seen of a step. -/
inductive Event
  | handover (e : GroupHandover.Event)
  /-- Process 5 stores the group id in the shared word. -/
  | stored (value : ℤ)
  /-- `sig_alrm` stores -2. -/
  | alarmed
  /-- Process 0 reports that the transfer failed. -/
  | gaveUp
  /-- Process 0 reads `value` from the shared word and sends SIGUSR1 to `target`, which ends the
  processes `victims`. -/
  | kill (value target : ℤ) (victims : List Member)
  deriving DecidableEq

/-- The members of the group, the shared word, the alarm and process 0. -/
structure St where
  base : GroupHandover.St
  tail : Member → Tail
  /-- `*shared_pgid_3` -/
  word : ℤ
  /-- An alarm is to come. -/
  armed : Bool
  pc0 : Pc0

namespace St

def goto0 (s : St) (pc : Pc0) : St := { s with pc0 := pc }

@[simp] theorem goto0_pc0 (s : St) (pc : Pc0) : (s.goto0 pc).pc0 = pc := rfl

def onward (s : St) (p : Member) (t : Tail) : St :=
  { s with tail := Function.update s.tail p t }

/-- A member of the group ends. -/
def exit (s : St) (p : Member) : St :=
  { s with
    base := match p with
      | .three => s.base.exit3
      | .four => s.base
      | .five => s.base.exit5
    tail := Function.update s.tail p .ended }

/-- The process has not ended. -/
def running (s : St) (p : Member) : Bool :=
  match p with
  | .three => s.base.pc3 != .ended
  | .four => s.tail .four != .ended
  | .five => s.base.pc5 != .ended

/-- The process is running and has not installed `sig_usr1`. -/
def unready (s : St) (p : Member) : Bool := s.running p && s.tail p != .sleep

theorem unready_iff {s : St} {p : Member} :
    s.unready p = true ↔ s.running p = true ∧ s.tail p ≠ .sleep := by
  simp [unready]

end St

/-! ### The programs -/

/-- What a member of the group does after the hand-over. -/
def afterwards (s : St) (p : Member) (r : Outcome) : Option (St × Option Event) :=
  match s.tail p with
  | .store =>
      let value := CInt.ofBytes s.base.pgid_3
      some ({ s with word := value }.onward p .signal, some (.stored value))
  | .signal => some (if r = .ok then s.onward p .sleep else s.exit p, none)
  -- `sleep(10); return 0;`
  | .sleep => some (s.exit p, none)
  | .ended => none

/-- A step of the hand-over. -/
def handover (s : St) (b : GroupHandover.St × Option GroupHandover.Event) : St × Option Event :=
  ({ s with base := b.1 }, b.2.map .handover)

/-- A step of a member of the group. -/
def member (P : Pids) (s : St) (p : Member) (r : Outcome) : Option (St × Option Event) :=
  match p with
  | .three =>
      if s.base.pc3 = .after then afterwards s .three r else (process3 P s.base r).map (handover s)
  | .four => afterwards s .four r
  | .five =>
      if s.base.pc5 = .after then afterwards s .five r else (process5 P s.base r).map (handover s)

/-- Whether `kill(target, SIGUSR1)`, called by process 0, reaches a process. -/
def reaches (P : Pids) (s : St) (target : ℤ) (p : Member) : Bool :=
  if target < -1 then s.base.pgid p = -target
  else if target = -1 then true
  else if target = 0 then s.base.pgid p = P.group
  else P.pid p = target

/-- The processes that SIGUSR1 ends, because its default action is to end a process. -/
def victims (P : Pids) (s : St) (target : ℤ) : List Member :=
  [.three, .four, .five].filter fun p => reaches P s target p && s.unready p

/-- A step of process 0. -/
def process0 (P : Pids) (s : St) (r : Outcome) : Option (St × Option Event) :=
  match s.pc0 with
  | .signalAlrm => some (s.goto0 (if r = .ok then .alarm else .ended), none)
  | .alarm => some ({ s with armed := true }.goto0 .poll, none)
  | .poll => some (s.goto0 (if s.word = -1 then .poll else .alarmOff), none)
  | .alarmOff => some ({ s with armed := false }.goto0 .check, none)
  | .check =>
      if s.word = -2 then some (s.goto0 .gaveUp, some .gaveUp) else some (s.goto0 .print, none)
  | .print => some (s.goto0 .kill, none)
  | .kill =>
      let target := CInt.wrap 4 (-s.word)
      if r = .ok then
        let vs := victims P s target
        some ((vs.foldl St.exit s).goto0 .munmap, some (.kill s.word target vs))
      else some (s.goto0 .ended, some (.kill s.word target []))
  -- `munmap` fails, or the word is read once more to be printed: SIGSEGV ends the process
  | .munmap => some (s.goto0 .ended, none)
  | .gaveUp | .ended => none

/-- Who makes a step: process 0, a member of the group, or the handler of SIGALRM. -/
inductive Choice
  | zero (r : Outcome)
  | member (p : Member) (r : Outcome)
  | sigalrm
  deriving DecidableEq

/-- A step.  `sig_alrm` runs in process 0, which does nothing else meanwhile; its step is the store,
the only access of the handler to the word. -/
def next (P : Pids) (s : St) : Choice → Option (St × Option Event)
  | .zero r => process0 P s r
  | .member p r => member P s p r
  | .sigalrm =>
      if s.armed then some ({ s with word := -2, armed := false }, some .alarmed) else none

/-- The hand-over begins; only process 5 has something to do before it installs its handler. -/
structure Init (P : Pids) (s : St) : Prop where
  base : GroupHandover.Init P s.base
  tail : s.tail = fun p => if p = .five then .store else .signal
  word : s.word = -1
  armed : s.armed = false
  pc0 : s.pc0 = .signalAlrm

abbrev Label := Choice × Option Event

/-- The processes 0, 3, 4 and 5 of `signal_process_group.c`. -/
def system (P : Pids) : Lts St Label := Lts.ofNext (Init P) (next P)

/-- The call of a step succeeds, or it is the polling open of process 5. -/
def Succeeds (s : St) (a : Label) : Prop :=
  match a.1 with
  | .zero r => r = .ok
  | .member p r => r = .ok ∨ p = .five ∧ (s.base.pc5 = .open ∨ s.base.pc5 = .opening)
  | .sigalrm => True

/-- The runs in which all calls but the polling open succeed. -/
def successful (P : Pids) : Lts St Label := (system P).restrict Succeeds

/-! ### The invariant -/

/-- The order of the program points of process 0. -/
def Pc0.place : Pc0 → ℕ
  | .signalAlrm => 0
  | .alarm => 1
  | .poll => 2
  | .alarmOff => 3
  | .check => 4
  | .print => 5
  | .kill => 6
  | .munmap => 7
  | .gaveUp => 8
  | .ended => 9

/-- **What holds in the successful runs**: which values the shared word can have, and who can still
change it. -/
structure Inv (P : Pids) (s : St) : Prop where
  base : GroupHandover.Inv P s.base
  /-- Only process 5 stores. -/
  stores : ∀ p, s.tail p = .store → p = .five
  /-- Process 5 stores after it has joined the group. -/
  stored : s.tail .five ≠ .store → 3 < s.base.pc5.place
  word : s.word = -1 ∨ s.word = -2 ∨ s.word = P.pid .three
  unstored : s.tail .five = .store → s.word ≠ P.pid .three
  /-- No alarm comes before `alarm(5)` or after `alarm(0)`. -/
  armed : s.armed = true → s.pc0 = .poll ∨ s.pc0 = .alarmOff
  polled : 2 < s.pc0.place → s.word ≠ -1
  /-- Between the check and the end nobody can store anything else. -/
  checked : 4 < s.pc0.place → s.pc0.place < 8 → s.word = P.pid .three

theorem inv_of_init {P : Pids} {s : St} (h : Init P s) : Inv P s := by
  have hpc : s.pc0.place = 0 := by rw [h.pc0]; rfl
  have hpos := P.pos .three
  constructor
  case base => exact GroupHandover.inv_of_init h.base
  case stores =>
    intro p hp
    by_contra hne
    simp [h.tail, hne] at hp
  case stored =>
    intro hne
    simp [h.tail] at hne
  case word => exact Or.inl h.word
  case unstored =>
    intro _
    rw [h.word]
    omega
  case armed =>
    intro harm
    rw [h.armed] at harm
    cases harm
  all_goals intros; omega

/-! ### What a step can be -/

/-- A member of the group has done its part of the hand-over. -/
def Done (s : St) : Member → Prop
  | .three => s.base.pc3 = .after
  | .four => True
  | .five => s.base.pc5 = .after

/-- **The steps of the successful runs**, where the invariant of the hand-over holds. -/
inductive Move (P : Pids) (s : St) : Choice → Option Event → St → Prop
  | handover {p : Member} {r : Outcome} {e : Option GroupHandover.Event} {e' : Option Event}
      {b : GroupHandover.St} : GroupHandover.Move P s.base p e b → ¬ Done s p →
      e' = e.map .handover → Move P s (.member p r) e' { s with base := b }
  | store : Done s .five → s.tail .five = .store →
      Move P s (.member .five .ok) (some (.stored (P.pid .three)))
        ({ s with word := P.pid .three }.onward .five .signal)
  | install {p : Member} : Done s p → s.tail p = .signal →
      Move P s (.member p .ok) none (s.onward p .sleep)
  | wake {p : Member} : Done s p → s.tail p = .sleep → Move P s (.member p .ok) none (s.exit p)
  | signalAlrm : s.pc0 = .signalAlrm → Move P s (.zero .ok) none (s.goto0 .alarm)
  | alarm : s.pc0 = .alarm → Move P s (.zero .ok) none ({ s with armed := true }.goto0 .poll)
  | poll : s.pc0 = .poll →
      Move P s (.zero .ok) none (s.goto0 (if s.word = -1 then .poll else .alarmOff))
  | alarmOff : s.pc0 = .alarmOff →
      Move P s (.zero .ok) none ({ s with armed := false }.goto0 .check)
  | giveUp : s.pc0 = .check → s.word = -2 →
      Move P s (.zero .ok) (some .gaveUp) (s.goto0 .gaveUp)
  | pass : s.pc0 = .check → s.word ≠ -2 → Move P s (.zero .ok) none (s.goto0 .print)
  | print : s.pc0 = .print → Move P s (.zero .ok) none (s.goto0 .kill)
  | kill {target : ℤ} {vs : List Member} : s.pc0 = .kill → target = CInt.wrap 4 (-s.word) →
      vs = victims P s target →
      Move P s (.zero .ok) (some (.kill s.word target vs)) ((vs.foldl St.exit s).goto0 .munmap)
  | munmap : s.pc0 = .munmap → Move P s (.zero .ok) none (s.goto0 .ended)
  | alarmed : s.armed = true →
      Move P s .sigalrm (some .alarmed) { s with word := -2, armed := false }

/-- What process 0 does when its calls succeed. -/
theorem move_of_process0 {P : Pids} {s s' : St} {e : Option Event}
    (h : process0 P s .ok = some (s', e)) : Move P s (.zero .ok) e s' := by
  cases hpc : s.pc0 with
  | signalAlrm | alarm | poll | alarmOff | print | munmap =>
      simp only [process0, hpc, if_true, Option.some.injEq, Prod.mk.injEq] at h
      obtain ⟨rfl, rfl⟩ := h
      constructor
      exact hpc
  | check =>
      simp only [process0, hpc] at h
      split at h <;> obtain ⟨rfl, rfl⟩ := Prod.mk.inj (Option.some.inj h)
      · exact .giveUp hpc ‹_›
      · exact .pass hpc ‹_›
  | kill =>
      simp only [process0, hpc, if_true, Option.some.injEq, Prod.mk.injEq] at h
      obtain ⟨rfl, rfl⟩ := h
      exact .kill hpc rfl rfl
  | gaveUp | ended => simp [process0, hpc] at h

/-- What a member of the group does after the hand-over when its calls succeed. -/
theorem move_of_afterwards {P : Pids} {s s' : St} {p : Member} {e : Option Event} (hi : Inv P s)
    (hdone : Done s p) (h : afterwards s p .ok = some (s', e)) :
    Move P s (.member p .ok) e s' := by
  cases htail : s.tail p with
  | store =>
      obtain rfl := hi.stores p htail
      have hlong : CInt.ofBytes s.base.pgid_3 = P.pid .three := by
        rw [hi.base.got (by rw [hdone]; decide), GroupHandover.ofBytes_message]
      simp only [afterwards, htail, hlong, Option.some.injEq, Prod.mk.injEq] at h
      obtain ⟨rfl, rfl⟩ := h
      exact .store hdone htail
  | signal =>
      simp only [afterwards, htail, if_true, Option.some.injEq, Prod.mk.injEq] at h
      obtain ⟨rfl, rfl⟩ := h
      exact .install hdone htail
  | sleep =>
      simp only [afterwards, htail, Option.some.injEq, Prod.mk.injEq] at h
      obtain ⟨rfl, rfl⟩ := h
      exact .wake hdone htail
  | ended => simp [afterwards, htail] at h

/-- What a step of the successful runs can be. -/
theorem move_of_step {P : Pids} {s s' : St} {a : Label} (hi : Inv P s)
    (h : (successful P).step s a s') : Move P s a.1 a.2 s' := by
  obtain ⟨hstep, hok⟩ := h
  obtain ⟨c, e⟩ := a
  cases c with
  | zero r =>
      obtain rfl : r = .ok := hok
      exact move_of_process0 hstep
  | member p r =>
      cases p with
      | three =>
          obtain rfl : r = .ok := by simpa [Succeeds] using hok
          change member P s .three .ok = _ at hstep
          simp only [member] at hstep
          split at hstep
          · exact move_of_afterwards hi ‹_› hstep
          · obtain ⟨⟨b, e'⟩, hb, heq⟩ := Option.map_eq_some_iff.1 hstep
            obtain ⟨rfl, rfl⟩ := Prod.mk.inj heq
            exact .handover (GroupHandover.move_of_process3 hi.base hb) ‹_› rfl
      | four =>
          obtain rfl : r = .ok := by simpa [Succeeds] using hok
          exact move_of_afterwards hi trivial hstep
      | five =>
          have hpoll : r = .ok ∨ s.base.pc5 = .open ∨ s.base.pc5 = .opening := by
            simpa [Succeeds] using hok
          change member P s .five r = _ at hstep
          simp only [member] at hstep
          split at hstep
          · rename_i hpc
            obtain rfl : r = .ok := by simpa [hpc] using hpoll
            exact move_of_afterwards hi hpc hstep
          · obtain ⟨⟨b, e'⟩, hb, heq⟩ := Option.map_eq_some_iff.1 hstep
            obtain ⟨rfl, rfl⟩ := Prod.mk.inj heq
            exact .handover (GroupHandover.move_of_process5 hi.base hpoll hb) ‹_› rfl
  | sigalrm =>
      obtain ⟨harm, heq⟩ := Option.ite_none_right_eq_some.1 hstep
      obtain ⟨rfl, rfl⟩ := Prod.mk.inj (Option.some.inj heq)
      exact .alarmed harm

/-! ### The invariant is kept -/

@[simp] theorem exit_word (s : St) (p : Member) : (s.exit p).word = s.word := rfl

theorem running_exit {s : St} {p q : Member} :
    (s.exit q).running p = true ↔ p ≠ q ∧ s.running p = true := by
  cases p <;> cases q <;> simp [St.exit, St.running, GroupHandover.St.exit3,
    GroupHandover.St.exit5]

theorem running_onward {s : St} {p q : Member} {t : Tail} (h : p ≠ q) :
    (s.onward q t).running p = s.running p := by
  cases p with
  | three | five => rfl
  | four => simp [St.onward, St.running, Function.update_of_ne h]

theorem exit_tail {s : St} {p q : Member} (h : (s.exit p).tail q = .store) :
    s.tail q = .store := by
  rcases eq_or_ne q p with rfl | hne
  · simp [St.exit] at h
  · simpa [St.exit, Function.update_of_ne hne] using h

theorem place_le_exit (s : St) (p : Member) : s.base.pc5.place ≤ (s.exit p).base.pc5.place := by
  cases p with
  | three | four => exact le_refl _
  | five => exact GroupHandover.Pc5.place_le _

/-- A member of the group may end when its part in the hand-over is done. -/
theorem Inv.exit {P : Pids} {s : St} (hi : Inv P s) (p : Member)
    (h₃ : p = .three → 6 < s.base.pc3.place) (h₅ : p = .five → s.tail .five ≠ .store) :
    Inv P (s.exit p) where
  base := by
    cases p with
    | three => exact hi.base.exit3 (h₃ rfl)
    | four => exact hi.base
    | five => exact hi.base.exit5 (hi.stored (h₅ rfl))
  stores q hq := hi.stores q (exit_tail hq)
  stored hne := by
    have hstored : s.tail .five ≠ .store := by
      rcases eq_or_ne .five p with heq | hp
      · exact h₅ heq.symm
      · simpa [St.exit, Function.update_of_ne hp] using hne
    exact lt_of_lt_of_le (hi.stored hstored) (place_le_exit s p)
  word := hi.word
  unstored hq := hi.unstored (exit_tail hq)
  armed := hi.armed
  polled := hi.polled
  checked := hi.checked

/-- Any of them may end when process 5 has stored the group id. -/
theorem Inv.exits {P : Pids} {s : St} (hi : Inv P s) (hword : s.word = P.pid .three)
    (vs : List Member) :
    Inv P (vs.foldl St.exit s) ∧ (vs.foldl St.exit s).word = P.pid .three ∧
      (vs.foldl St.exit s).pc0 = s.pc0 := by
  induction vs generalizing s with
  | nil => exact ⟨hi, hword, rfl⟩
  | cons p vs ih =>
      have hstored : s.tail .five ≠ .store := fun h => hi.unstored h hword
      have hplace := hi.stored hstored
      have hsent := hi.base.sent (by omega)
      exact ih (hi.exit p (fun _ => hsent) fun _ => hstored) hword

/-- Process 0 moves on; the program point says what is known of the alarm and of the word. -/
theorem Inv.goto0 {P : Pids} {s : St} (hi : Inv P s) {pc : Pc0} (b : Bool)
    (harmed : b = true → pc = .poll ∨ pc = .alarmOff) (hpolled : 2 < pc.place → s.word ≠ -1)
    (hchecked : 4 < pc.place → pc.place < 8 → s.word = P.pid .three) :
    Inv P ({ s with armed := b }.goto0 pc) :=
  ⟨hi.base, hi.stores, hi.stored, hi.word, hi.unstored, harmed, hpolled, hchecked⟩

/-- Without an alarm to come process 0 moves on. -/
theorem Inv.goto0_off {P : Pids} {s : St} (hi : Inv P s) {pc : Pc0} (h₁ : s.pc0 ≠ .poll)
    (h₂ : s.pc0 ≠ .alarmOff) (hpolled : 2 < pc.place → s.word ≠ -1)
    (hchecked : 4 < pc.place → pc.place < 8 → s.word = P.pid .three) : Inv P (s.goto0 pc) :=
  hi.goto0 s.armed (fun h => by rcases hi.armed h with hpc | hpc <;> contradiction) hpolled hchecked

/-- A member of the group goes on after the hand-over. -/
theorem Inv.onward {P : Pids} {s : St} (hi : Inv P s) {p : Member} {t : Tail}
    (hp : s.tail p ≠ .store) (ht : t ≠ .store) : Inv P (s.onward p t) := by
  have htail : ∀ q, (s.onward p t).tail q = .store → s.tail q = .store := by
    intro q hq
    rcases eq_or_ne q p with rfl | hne
    · exact absurd (by simpa [St.onward] using hq) ht
    · simpa [St.onward, Function.update_of_ne hne] using hq
  refine ⟨hi.base, fun q hq => hi.stores q (htail q hq), fun hne => ?_, hi.word,
    fun hq => hi.unstored (htail _ hq), hi.armed, hi.polled, hi.checked⟩
  rcases eq_or_ne .five p with rfl | hfive
  · exact hi.stored hp
  · exact hi.stored (by simpa [St.onward, Function.update_of_ne hfive] using hne)

/-- **Every step keeps the invariant.** -/
theorem Inv.move {P : Pids} {s s' : St} {c : Choice} {e : Option Event} (hi : Inv P s)
    (hm : Move P s c e s') : Inv P s' := by
  have hpos := P.pos .three
  cases hm with
  | handover hb _ _ =>
      refine ⟨hi.base.move hb, hi.stores, fun hne => ?_, hi.word, hi.unstored, hi.armed, hi.polled,
        hi.checked⟩
      have hplace := hi.stored hne
      exact lt_of_lt_of_le hplace (hb.place_le (by omega))
  | store hdone htail =>
      refine ⟨hi.base, fun q hq => ?_, fun _ => ?_, Or.inr (Or.inr rfl), fun hq => ?_, hi.armed,
        fun _ => ?_, fun _ _ => rfl⟩
      · by_contra hne
        exact hne (hi.stores q (by simpa [St.onward, Function.update_of_ne hne] using hq))
      · change 3 < s.base.pc5.place
        rw [hdone]
        decide
      · simp [St.onward] at hq
      · change P.pid .three ≠ -1
        omega
  | install hdone htail => exact hi.onward (by simp [htail]) (by simp)
  | @wake p hdone htail =>
      refine hi.exit p ?_ ?_
      · rintro rfl
        rw [hdone]
        decide
      · rintro rfl
        simp [htail]
  | signalAlrm hpc =>
      exact hi.goto0_off (by simp [hpc]) (by simp [hpc]) (fun h => absurd h (by decide))
        fun h => absurd h (by decide)
  | alarm hpc =>
      exact hi.goto0 true (fun _ => Or.inl rfl) (fun h => absurd h (by decide))
        fun h => absurd h (by decide)
  | poll hpc =>
      split
      · exact hi.goto0 s.armed (fun _ => Or.inl rfl) (fun h => absurd h (by decide))
          fun h => absurd h (by decide)
      · exact hi.goto0 s.armed (fun _ => Or.inr rfl) (fun _ => ‹_›) fun h => absurd h (by decide)
  | alarmOff hpc =>
      have hword := hi.polled (by rw [hpc]; decide)
      exact hi.goto0 false (fun h => by cases h) (fun _ => hword) fun h => absurd h (by decide)
  | giveUp hpc _ =>
      have hword := hi.polled (by rw [hpc]; decide)
      exact hi.goto0_off (by simp [hpc]) (by simp [hpc]) (fun _ => hword)
        fun _ h => absurd h (by decide)
  | pass hpc hne =>
      -- the word is neither -1 nor -2, and nobody will store one of them any more
      have hword := hi.polled (by rw [hpc]; decide)
      exact hi.goto0_off (by simp [hpc]) (by simp [hpc]) (fun _ => hword)
        fun _ _ => (hi.word.resolve_left hword).resolve_left hne
  | print hpc =>
      have hword := hi.checked (by rw [hpc]; decide) (by rw [hpc]; decide)
      exact hi.goto0_off (by simp [hpc]) (by simp [hpc]) (fun _ => by omega) fun _ _ => hword
  | kill hpc _ _ =>
      have hword := hi.checked (by rw [hpc]; decide) (by rw [hpc]; decide)
      obtain ⟨hi', hword', hpc'⟩ := hi.exits hword _
      exact hi'.goto0_off (by simp [hpc', hpc]) (by simp [hpc', hpc]) (fun _ => by omega)
        fun _ _ => hword'
  | munmap hpc =>
      have hword := hi.polled (by rw [hpc]; decide)
      exact hi.goto0_off (by simp [hpc]) (by simp [hpc]) (fun _ => hword)
        fun _ h => absurd h (by decide)
  | alarmed harm =>
      have hpc : 4 < s.pc0.place → False := by
        rcases hi.armed harm with hpc | hpc <;> simp [hpc, Pc0.place]
      refine ⟨hi.base, hi.stores, hi.stored, Or.inr (Or.inl rfl), fun _ h => ?_,
        (fun h => by cases h), fun _ h => ?_, fun h => (hpc h).elim⟩
      · change -2 = _ at h
        omega
      · cases h

/-- **The invariant holds in every state of the successful runs.** -/
theorem inv {P : Pids} {as : List Label} {s : St} (h : (successful P).Exec as s) : Inv P s :=
  h.state_invariant (fun _ => inv_of_init) fun _ _ _ hi hs => hi.move (move_of_step hi hs)

/-! ### The target of the signal -/

/-- **The signal goes to the group of process 3**: the value that process 0 reads for `kill` is the
id of process 3, never one of the two that say that there is none. -/
theorem right_target {P : Pids} {as : List Label} {s : St} (h : (successful P).Exec as s) :
    ∀ a ∈ as, ∀ value target vs, a.2 = some (.kill value target vs) →
      value = P.pid .three ∧ target = -P.pid .three := by
  refine h.forall_labels ?_
  rintro as s ⟨c, _⟩ s' hr hs value target vs rfl
  have hi := inv hr
  have hm := move_of_step hi hs
  cases hm with
  | handover _ _ he => simp at he
  | kill hpc htarget hvs =>
      have hword := hi.checked (by rw [hpc]; decide) (by rw [hpc]; decide)
      have hpos := P.pos .three
      have hlt := P.lt .three
      exact ⟨hword, by rw [htarget, hword, CInt.wrap_eq_self (by omega) (by omega)]⟩

/-- The processes after the forks, with the ids of `GroupHandover.pids`. -/
def started : St where
  base := GroupHandover.started
  tail p := if p = .five then .store else .signal
  word := -1
  armed := false
  pc0 := .signalAlrm

theorem init_started : Init GroupHandover.pids started :=
  ⟨⟨rfl, rfl, rfl, rfl, rfl⟩, rfl, rfl, rfl, rfl⟩

/-- The hand-over, the `setpgid` of process 5 and its store. -/
def storing : List Choice :=
  GroupHandover.choices.map (fun c => .member c.1 c.2) ++ List.replicate 2 (.member .five .ok)

/-- The call of a step succeeds. -/
def Choice.ok : Choice → Bool
  | .zero r | .member _ r => r = .ok
  | .sigalrm => true

theorem succeeds_of_ok {c : Choice} (h : c.ok = true) (s : St) (e : Option Event) :
    Succeeds s (c, e) := by
  cases c with
  | zero r => simpa [Choice.ok, Succeeds] using h
  | member p r => exact Or.inl (by simpa [Choice.ok] using h)
  | sigalrm => trivial

/-- Process 0 polls right after the store and comes to `kill` before anybody else moves. -/
theorem exec_hasty : ∃ as s, (successful GroupHandover.pids).Exec as s ∧
    ∃ a ∈ as, a.2 = some (.kill 103 (-103) [.three, .four, .five]) := by
  have h : (Lts.perform (next GroupHandover.pids) started
      (storing ++ List.replicate 7 (.zero .ok))).map (fun r => r.2.getLast?)
        = some (some (some (.kill 103 (-103) [.three, .four, .five]))) := by rfl
  obtain ⟨⟨s, es⟩, hperform, hlast⟩ := Option.map_eq_some_iff.1 h
  have hmem := List.mem_of_getLast? hlast
  refine ⟨_, s, Lts.Exec.of_perform init_started hperform ?_,
    Lts.exists_label_of_perform hperform hmem⟩
  have hok : ∀ c ∈ storing ++ List.replicate 7 (.zero .ok), c.ok = true := by decide
  exact fun c hc => succeeds_of_ok (hok c hc)

/-- There the signal goes to the group 103. -/
theorem right_target_hasty : ∃ as s, (successful GroupHandover.pids).Exec as s ∧
    ∃ a ∈ as, ∃ value target vs, a.2 = some (.kill value target vs) ∧ target = -103 := by
  obtain ⟨as, s, hex, a, ha, hkill⟩ := exec_hasty
  obtain ⟨-, htarget⟩ := right_target hex a ha _ _ _ hkill
  exact ⟨as, s, hex, a, ha, _, _, _, hkill, htarget⟩

end SignalProcessGroup
