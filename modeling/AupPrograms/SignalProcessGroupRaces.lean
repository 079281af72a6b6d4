/-
**The two races of `signal_process_group.c`.**

*The alarm.*  `sig_alrm` stores -2 in the shared word whatever the word is.  When it runs after
process 5 has stored the group id and before `alarm(0)`, the id is lost; and when process 5 stores
the id after process 0 has given up, nobody reads it.  Otherwise process 0 comes to its `kill`.

*The handlers.*  Process 5 stores the group id before it installs its handler for SIGUSR1, and
nothing orders the handlers of processes 3 and 4 before the signal.  All is well when process 0
passes its check after they all have been installed; when it passes it earlier, it can go on and end
a process that has not.

Main definitions:

* `SignalProcessGroup.InTime`, `SignalProcessGroup.timely` — the steps by which no id is lost;
* `SignalProcessGroup.Waits`, `SignalProcessGroup.patient` — a check that comes after the handlers.

Main results:

* `SignalProcessGroup.not_lost` — **in time, the id stays and process 0 comes to `kill`; a step that
  is not in time loses it**;
* `SignalProcessGroup.all_ready` — **after the handlers, the signal ends nobody; a check that does
  not wait for them can be followed by a signal that ends a process.**
-/

import AupPrograms.SignalProcessGroup

set_option relaxedAutoImplicit false
set_option autoImplicit false

namespace SignalProcessGroup

open GroupHandover (Member Pids)
open Syscall (Outcome)

/-- The step is a call of `kill`. -/
def Kills (a : Label) : Prop := ∃ value target vs, a.2 = some (.kill value target vs)

/-! ### The alarm -/

/-- Process 5 has stored the group id. -/
def Stored (s : St) : Prop := s.tail .five ≠ .store

/-- **A step in time**: no alarm after the store, and no store after process 0 has given up. -/
structure InTime (s : St) (a : Label) : Prop where
  alarm : a.1 = .sigalrm → ¬ Stored s
  store : (∃ value, a.2 = some (.stored value)) → s.pc0 ≠ .gaveUp

/-- The runs whose steps are in time. -/
def timely (P : Pids) : Lts St Label := (successful P).restrict InTime

/-- The group id is there to be read. -/
def Published (P : Pids) (s : St) : Prop :=
  Stored s → s.word = P.pid .three ∧ s.pc0 ≠ .gaveUp

theorem stored_onward {s : St} {p : Member} {t : Tail} (hp : s.tail p ≠ .store)
    (h : Stored (s.onward p t)) : Stored s := by
  rcases eq_or_ne .five p with rfl | hne
  · exact hp
  · simpa [Stored, St.onward, Function.update_of_ne hne] using h

theorem stored_exit {s : St} {p : Member} (hp : s.tail p ≠ .store) (h : Stored (s.exit p)) :
    Stored s := by
  rcases eq_or_ne .five p with rfl | hne
  · exact hp
  · simpa [Stored, St.exit, Function.update_of_ne hne] using h

/-- A step in time keeps the group id. -/
theorem Published.move {P : Pids} {s s' : St} {c : Choice} {e : Option Event} (hi : Inv P s)
    (h : Published P s) (hm : Move P s c e s') (ht : InTime s (c, e)) : Published P s' := by
  have hpos := P.pos .three
  intro hs'
  cases hm with
  | handover _ _ _ => exact h hs'
  | store _ _ => exact ⟨rfl, ht.store ⟨_, rfl⟩⟩
  | install _ htail => exact h (stored_onward (by simp [htail]) hs')
  | wake _ htail => exact h (stored_exit (by simp [htail]) hs')
  | alarmed _ => exact absurd hs' (ht.alarm rfl)
  | giveUp _ hword =>
      have hkept := (h hs').1
      omega
  | poll hpc =>
      refine ⟨(h hs').1, ?_⟩
      change (if s.word = -1 then Pc0.poll else Pc0.alarmOff) ≠ .gaveUp
      split <;> decide
  | signalAlrm | alarm | alarmOff | pass | print | munmap =>
      exact ⟨(h hs').1, by simp⟩
  | kill hpc _ _ =>
      have hword := hi.checked (by rw [hpc]; decide) (by rw [hpc]; decide)
      exact ⟨(hi.exits hword _).2.1, by simp⟩

theorem published {P : Pids} {as : List Label} {s : St} (h : (timely P).Exec as s) :
    Published P s := by
  refine Lts.Exec.invariant (I := fun _ s => Published P s) ?_ ?_ h
  · intro s hs hstored
    exact absurd (by simp [hs.tail]) hstored
  · rintro as s a s' hr ih ⟨hs, ht⟩
    have hi := inv hr.of_restrict
    exact ih.move hi (move_of_step hi hs) ht

/-- Past `kill` process 0 has called it or given up. -/
theorem killed_of_place {P : Pids} {as : List Label} {s : St} (h : (successful P).Exec as s)
    (hplace : 6 < s.pc0.place) : s.pc0 = .gaveUp ∨ ∃ a ∈ as, Kills a := by
  refine Lts.Exec.invariant
    (I := fun as s => 6 < s.pc0.place → s.pc0 = .gaveUp ∨ ∃ a ∈ as, Kills a) ?_ ?_ h hplace
  · intro s hs hlt
    rw [hs.pc0] at hlt
    exact absurd hlt (by decide)
  · rintro as s ⟨c, e⟩ s' hr ih hs hlt
    have hbefore : ∀ {b : Label}, (s.pc0 = .gaveUp ∨ ∃ a ∈ as, Kills a) →
        s.pc0 = .gaveUp ∨ ∃ a ∈ as ++ [b], Kills a :=
      Or.imp_right fun ⟨a, ha, hk⟩ => ⟨a, List.mem_append_left _ ha, hk⟩
    cases move_of_step (inv hr) hs with
    | handover _ _ _ | store _ _ | install _ _ | wake _ _ | alarmed _ => exact hbefore (ih hlt)
    | signalAlrm _ | alarm _ | alarmOff _ | pass _ _ | print _ => simp [Pc0.place] at hlt
    | poll _ => split at hlt <;> simp [Pc0.place] at hlt
    | giveUp _ _ => exact Or.inl rfl
    | kill _ _ _ =>
        exact Or.inr ⟨_, List.mem_append_right _ (List.mem_singleton_self _), _, _, _, rfl⟩
    | munmap hpc =>
        rcases hbefore (ih (by rw [hpc]; decide)) with hgave | hkill
        · rw [hpc] at hgave
          cases hgave
        · exact Or.inr hkill

/-- The number of steps of process 0. -/
def zeros (as : List Label) : ℕ := as.countP fun a => a.1 = .zero .ok

/-- What is stored has been stored. -/
theorem Stored.move {P : Pids} {s s' : St} {c : Choice} {e : Option Event} (hi : Inv P s)
    (h : Stored s) (hm : Move P s c e s') : Stored s' := by
  cases hm with
  | handover _ _ _ | alarmed _ | signalAlrm _ | alarm _ | poll _ | alarmOff _ | giveUp _ _
  | pass _ _ | print _ | munmap _ => exact h
  | store _ _ => simp [Stored, St.onward]
  | @install p _ _ | @wake p _ _ =>
      rcases eq_or_ne .five p with rfl | hne
      · simp [Stored, St.onward, St.exit]
      · simpa [Stored, St.onward, St.exit, Function.update_of_ne hne] using h
  | kill hpc _ _ =>
      have hword := hi.checked (by rw [hpc]; decide) (by rw [hpc]; decide)
      obtain ⟨hi', hword', -⟩ := hi.exits hword _
      exact fun htail => hi'.unstored htail hword'

/-- Once the group id is published, every step of process 0 brings it further. -/
theorem place_of_move {P : Pids} {s s' : St} {c : Choice} {e : Option Event}
    (hword : s.word = P.pid .three) (hm : Move P s c e s') :
    s.pc0.place + zeros [(c, e)] ≤ s'.pc0.place := by
  have hpos := P.pos .three
  cases hm with
  | handover _ _ _ | alarmed _ | store _ _ | install _ _ | wake _ _ => exact le_refl _
  | poll hpc =>
      rw [hpc, if_neg (by omega)]
      simp [zeros, Pc0.place]
  | signalAlrm hpc | alarm hpc | alarmOff hpc | pass hpc _ | print hpc | kill hpc _ _
  | munmap hpc | giveUp hpc _ =>
      rw [hpc]
      simp [zeros, Pc0.place]

theorem place_of_run {P : Pids} {as bs : List Label} {s s' : St} (h : (timely P).Exec as s)
    (hstored : Stored s) (hrun : (timely P).Run s bs s') :
    s.pc0.place + zeros bs ≤ s'.pc0.place ∧ Stored s' := by
  induction hrun with
  | nil => exact ⟨le_refl _, hstored⟩
  | @snoc s₁ s₂ bs a hrun hs ih =>
      obtain ⟨c, e⟩ := a
      obtain ⟨hle, hstored₁⟩ := ih
      have hex := h.trans hrun
      have hi := inv hex.of_restrict
      have hm := move_of_step hi hs.1
      have hlast : s₁.pc0.place + zeros [(c, e)] ≤ s₂.pc0.place :=
        place_of_move (published hex hstored₁).1 hm
      have hsum : zeros (bs ++ [(c, e)]) = zeros bs + zeros [(c, e)] := List.countP_append ..
      refine ⟨?_, hstored₁.move hi hm⟩
      rw [hsum]
      omega

/-- Before its `kill`, process 0 can always make its next step. -/
theorem exists_step {P : Pids} {s : St} (hplace : s.pc0.place ≤ 6) :
    ∃ a s', a.1 = .zero .ok ∧ (timely P).step s a s' := by
  have h : ∃ s' e, process0 P s .ok = some (s', e) ∧ ∀ value, e ≠ some (.stored value) := by
    cases hpc : s.pc0 with
    | check =>
        by_cases hword : s.word = -2
        · exact ⟨_, _, by simp only [process0, hpc, if_pos hword]; rfl, by simp⟩
        · exact ⟨_, _, by simp only [process0, hpc, if_neg hword]; rfl, by simp⟩
    | signalAlrm | alarm | poll | alarmOff | print | kill =>
        exact ⟨_, _, by simp only [process0, hpc, if_true]; rfl, by simp⟩
    | munmap | gaveUp | ended => simp [hpc, Pc0.place] at hplace
  obtain ⟨s', e, hs, he⟩ := h
  refine ⟨(.zero .ok, e), s', rfl, ⟨hs, rfl⟩, ⟨fun hc => ?_, fun hv => ?_⟩⟩
  · cases hc
  · obtain ⟨value, hv⟩ := hv
    exact absurd hv (he value)

/-- **When the group id is lost.**  In every run whose steps are in time, a stored group id stays in
the shared word, process 0 does not give up, and it has called `kill` or has made fewer than seven
steps since the store and can make the next one; and a step that is not in time loses the group id
or comes after process 0 has given up. -/
theorem not_lost (P : Pids) :
    (∀ as s, (timely P).Exec as s → Stored s → s.word = P.pid .three ∧ s.pc0 ≠ .gaveUp ∧
      ∀ bs s', (timely P).Run s bs s' → (∃ a ∈ as ++ bs, Kills a) ∨
        zeros bs < 7 ∧ ∃ a s'', a.1 = .zero .ok ∧ (timely P).step s' a s'') ∧
    (∀ as s a s', (successful P).Exec as s → (successful P).step s a s' → ¬ InTime s a →
      Stored s' ∧ (s'.word ≠ P.pid .three ∨ s'.pc0 = .gaveUp)) := by
  constructor
  · intro as s hex hstored
    obtain ⟨hword, hpc⟩ := published hex hstored
    refine ⟨hword, hpc, fun bs s' hrun => ?_⟩
    obtain ⟨hle, hstored'⟩ := place_of_run hex hstored hrun
    have hex' := hex.trans hrun
    rcases Nat.lt_or_ge 6 s'.pc0.place with hlt | hge
    · exact Or.inl ((killed_of_place hex'.of_restrict hlt).resolve_left (published hex' hstored').2)
    · exact Or.inr ⟨by omega, exists_step hge⟩
  · rintro as s ⟨c, e⟩ s' hex hs hlate
    have hi := inv hex
    have hpos := P.pos .three
    have hm := move_of_step hi hs
    by_cases halarm : c = .sigalrm ∧ Stored s
    · obtain ⟨rfl, hstored⟩ := halarm
      cases hm with
      | alarmed _ =>
          refine ⟨hstored, Or.inl ?_⟩
          change -2 ≠ _
          omega
    · by_cases hstore : (∃ value, e = some (.stored value)) ∧ s.pc0 = .gaveUp
      · obtain ⟨⟨value, rfl⟩, hpc⟩ := hstore
        cases hm with
        | store _ _ => exact ⟨by simp [Stored, St.onward], Or.inr hpc⟩
        | handover _ _ he => simp at he
      · exact absurd ⟨fun hc hst => halarm ⟨hc, hst⟩, fun he hpc => hstore ⟨he, hpc⟩⟩ hlate

/-- SIGALRM is delivered right after the store of process 5: the id is overwritten and process 0
gives up. -/
theorem overwritten : ¬ ∀ P as s, (successful P).Exec as s → Stored s →
    s.word = P.pid .three ∧ s.pc0 ≠ .gaveUp := by
  intro hall
  let cs := List.replicate 2 (.zero .ok) ++ storing ++ .sigalrm :: List.replicate 3 (.zero .ok)
  have h : (Lts.perform (next GroupHandover.pids) started cs).map
      (fun r => (r.1.tail .five, r.1.pc0)) = some (.signal, .gaveUp) := by rfl
  obtain ⟨⟨s, es⟩, hperform, hs⟩ := Option.map_eq_some_iff.1 h
  obtain ⟨htail, hpc⟩ := Prod.mk.inj hs
  have hstored : Stored s := by
    rw [Stored, show s.tail .five = .signal from htail]
    decide
  have hok : ∀ c ∈ cs, c.ok = true := by decide
  have hex : (successful GroupHandover.pids).Exec (cs.zip es) s :=
    Lts.Exec.of_perform init_started hperform fun c hc => succeeds_of_ok (hok c hc)
  exact (hall _ _ _ hex hstored).2 hpc

/-! ### The handlers -/

/-- **Waiting for the handlers**: process 0 passes its check when every process of the group that is
running has installed `sig_usr1`. -/
def Waits (s : St) (a : Label) : Prop :=
  a.1 = .zero .ok → s.pc0 = .check → s.word ≠ -2 → ∀ p, s.unready p = false

/-- The runs in which process 0 waits for the handlers. -/
def patient (P : Pids) : Lts St Label := (successful P).restrict Waits

/-- A process that is not ready was not before, unless process 0 made the step. -/
theorem unready_of_move {P : Pids} {s s' : St} {c : Choice} {e : Option Event}
    (hm : Move P s c e s') (hc : c ≠ .zero .ok) {p : Member} (h : s'.unready p = true) :
    s.unready p = true := by
  obtain ⟨hrun, htail⟩ := St.unready_iff.1 h
  rw [St.unready_iff]
  cases hm with
  | handover hb _ _ =>
      refine ⟨?_, htail⟩
      cases p with
      | three => simpa [St.running] using mt hb.ended.1 (by simpa [St.running] using hrun)
      | four => exact hrun
      | five => simpa [St.running] using mt hb.ended.2 (by simpa [St.running] using hrun)
  | store _ hstore =>
      rcases eq_or_ne p .five with rfl | hne
      · exact ⟨hrun, by simp [hstore]⟩
      · exact ⟨running_onward hne ▸ hrun,
          by simpa [St.onward, Function.update_of_ne hne] using htail⟩
  | @install q _ _ =>
      rcases eq_or_ne p q with rfl | hne
      · simp [St.onward] at htail
      · exact ⟨running_onward hne ▸ hrun,
          by simpa [St.onward, Function.update_of_ne hne] using htail⟩
  | @wake q _ _ =>
      obtain ⟨hne, hrun⟩ := running_exit.1 hrun
      exact ⟨hrun, by simpa [St.exit, Function.update_of_ne hne] using htail⟩
  | alarmed _ => exact ⟨hrun, htail⟩
  | _ => exact absurd rfl hc

/-- Between its check and its signal process 0 knows that all handlers are installed. -/
theorem ready {P : Pids} {as : List Label} {s : St} (h : (patient P).Exec as s) :
    s.pc0 = .print ∨ s.pc0 = .kill → ∀ p, s.unready p = false := by
  refine Lts.Exec.state_invariant
    (I := fun s => Inv P s ∧ (s.pc0 = .print ∨ s.pc0 = .kill → ∀ p, s.unready p = false))
    ?_ ?_ h |>.2
  · intro s hs
    refine ⟨inv_of_init hs, fun hpc => ?_⟩
    rw [hs.pc0] at hpc
    rcases hpc with hpc | hpc <;> cases hpc
  · rintro s ⟨c, e⟩ s' ⟨hi, ih⟩ ⟨hs, hw⟩
    have hm := move_of_step hi hs
    refine ⟨hi.move hm, fun hpc p => ?_⟩
    by_cases hc : c = .zero .ok
    · subst hc
      cases hm with
      | pass hcheck hword => exact hw rfl hcheck hword p
      | print hprint => exact ih (Or.inl hprint) p
      | poll _ => split at hpc <;> simp at hpc
      | signalAlrm _ | alarm _ | alarmOff _ | giveUp _ _ | kill _ _ _ | munmap _ => simp at hpc
    · have hpc' : s'.pc0 = s.pc0 := by
        cases hm with
        | handover _ _ _ | store _ _ | install _ _ | wake _ _ | alarmed _ => rfl
        | _ => exact absurd rfl hc
      rw [hpc'] at hpc
      by_contra hun
      have hbefore := unready_of_move hm hc (by simpa using hun)
      rw [ih hpc p] at hbefore
      cases hbefore

/-- When nobody is unready the signal ends nobody. -/
theorem victims_eq_nil {P : Pids} {s : St} {target : ℤ} (h : ∀ p, s.unready p = false) :
    victims P s target = [] := by
  simp [victims, h]

/-- Once the group id is stored, the signal reaches all of the group. -/
theorem reaches_of_word {P : Pids} {s : St} (hi : Inv P s) (hword : s.word = P.pid .three)
    (p : Member) : reaches P s (CInt.wrap 4 (-s.word)) p = true := by
  have hpos := P.pos .three
  have hlt := P.lt .three
  have hplace := hi.stored fun h => hi.unstored h hword
  have hsent := hi.base.sent (by omega)
  have hgroup : s.base.pgid p = P.pid .three := by
    cases p with
    | three => exact hi.base.leader (by omega)
    | four => exact hi.base.moved (by omega)
    | five => exact hi.base.joined hplace
  rw [hword, CInt.wrap_eq_self (by omega) (by omega), reaches, hgroup]
  split
  · simp
  · rw [if_pos (by omega)]

/-- A check that does not wait for a process can be followed by a signal that ends it. -/
theorem ends_of_hasty {P : Pids} {as : List Label} {s s' : St} {a : Label}
    (h : (successful P).Exec as s) (hs : (successful P).step s a s') (hw : ¬ Waits s a) :
    ∃ bs s'', (successful P).Run s' bs s'' ∧
      ∃ b ∈ bs, ∃ value target vs, b.2 = some (.kill value target vs) ∧ vs ≠ [] := by
  obtain ⟨c, e⟩ := a
  have hi := inv h
  simp only [Waits, not_forall, Bool.not_eq_false] at hw
  obtain ⟨hc, hpc, hne, p, hp⟩ := hw
  obtain rfl : c = .zero .ok := hc
  have hword := (hi.word.resolve_left (hi.polled (by rw [hpc]; decide))).resolve_left hne
  obtain rfl : s' = s.goto0 .print := by
    have hstep : process0 P s .ok = some (s', e) := hs.1
    simp only [process0, hpc, if_neg hne, Option.some.injEq, Prod.mk.injEq] at hstep
    exact hstep.1.symm
  let target := CInt.wrap 4 (-s.word)
  let vs := victims P s target
  have hprint : (successful P).step (s.goto0 .print) (.zero .ok, none) (s.goto0 .kill) :=
    ⟨rfl, rfl⟩
  have hkill : (successful P).step (s.goto0 .kill) (.zero .ok, some (.kill s.word target vs))
      ((vs.foldl St.exit (s.goto0 .kill)).goto0 .munmap) := ⟨rfl, rfl⟩
  refine ⟨_, _, (Lts.Run.single hprint).trans (Lts.Run.single hkill), _,
    List.mem_append_right _ (List.mem_singleton_self _), _, _, _, rfl, ?_⟩
  have hmem : p ∈ vs := by
    refine List.mem_filter.2 ⟨by cases p <;> decide, ?_⟩
    rw [reaches_of_word hi hword, hp]
    rfl
  exact List.ne_nil_of_mem hmem

/-- **Who is ended by the signal.**  When process 0 passes its check only after every running
process of the group has installed its handler, the signal ends nobody; when it passes it earlier,
it can go on to end a process that has not. -/
theorem all_ready (P : Pids) :
    (∀ as s, (patient P).Exec as s → ∀ a ∈ as, ∀ value target vs,
      a.2 = some (.kill value target vs) → vs = []) ∧
    (∀ as s a s', (successful P).Exec as s → (successful P).step s a s' → ¬ Waits s a →
      ∃ bs s'', (successful P).Run s' bs s'' ∧
        ∃ b ∈ bs, ∃ value target vs, b.2 = some (.kill value target vs) ∧ vs ≠ []) := by
  refine ⟨fun as s hex => hex.forall_labels ?_, fun as s a s' hex hs hw => ends_of_hasty hex hs hw⟩
  rintro as s ⟨c, _⟩ s' hr ⟨hs, _⟩ value target vs rfl
  have hi := inv hr.of_restrict
  cases move_of_step hi hs with
  | handover _ _ he => simp at he
  | kill hpc _ hvs => exact hvs.trans (victims_eq_nil (ready hr (Or.inr hpc)))

/-- Process 0 is faster than the three of them: the signal ends them all. -/
theorem ended_unready : ¬ ∀ P as s, (successful P).Exec as s → ∀ a ∈ as, ∀ value target vs,
    a.2 = some (.kill value target vs) → vs = [] := by
  intro hall
  obtain ⟨as, s, hex, a, ha, hkill⟩ := exec_hasty
  cases hall _ _ _ hex a ha _ _ _ hkill

end SignalProcessGroup
