/-
**With which numbers of threads the spinning buffer stays within its array**
(`mutex_lock_unlock.c`).

The program runs one producer and one consumer.  Its test is made before the mutex is locked and not
repeated under it, so with a second producer two of them can pass the test on the same last free
slot, and with a second consumer two of them can pass it on the same last token.  This module shows
that nothing else can go wrong, and determines exactly for which numbers of threads and iterations
it does.

Main definitions:

* `SpinBuffer.avail` — what the threads of one side spin for: free slots, or tokens;
* `SpinBuffer.Kept` — a thread past its test finds what it has tested for;
* `SpinBuffer.Balanced` — the counter is the difference of the increments and decrements made.

Main results:

* `SpinBuffer.balanced` — the balance, in every reachable state;
* `SpinBuffer.kept` — what suffices for a side to find what it has tested for;
* `SpinBuffer.run_race` — two threads of a side that pass the test together;
* `SpinBuffer.slots_in_range_iff` — **when every access of every run stays within the array**.
-/

import AupPrograms.SpinBuffer
import Mathlib.Algebra.Order.BigOperators.Group.Finset
import Mathlib.Data.Fintype.Card

set_option relaxedAutoImplicit false
set_option autoImplicit false

namespace SpinBuffer

open Pthread BoundedBuffer

variable {P C : Type}

/-! ### The counter -/

/-- The updates of the counter a thread at `l` has made. -/
def Loc.counted (l : Loc) : ℕ :=
  match l.pc with
  | .unlock => l.i + 1
  | _ => l.i

/-- The thread has passed its test, and has not yet updated the counter. -/
def Loc.Cleared (l : Loc) : Prop :=
  match l.pc with
  | .lock | .slot | .adjust => True
  | .head | .spin | .unlock | .exit => False

/-- The increments of a producer, or minus the decrements of a consumer. -/
def net (t : P ⊕ C) (st : Status Loc Unit Empty) : ℤ :=
  match t with
  | .inl _ => st.loc.counted
  | .inr _ => -st.loc.counted

theorem slot_count (MAX : ℕ) (t : P ⊕ C) (i : ℕ) (g : Mem (Token P)) :
    ((side MAX t).slot i g).count = g.count := by
  cases t <;> rfl

variable [DecidableEq P] [DecidableEq C]

/-- A move leaves the counter and what every thread has counted alone, or it is an update of the
counter. -/
theorem Move.counts {MAX N : ℕ} {s s' : St P C} {e : Option (Event (Token P))}
    (h : Move MAX N s e s') :
    (s'.mem.count = s.mem.count ∧
        ∀ u, (s'.status u).loc.counted = (s.status u).loc.counted) ∨
      ∃ t i, s.status t = .run ⟨.adjust, i⟩ ∧
        s' = (s.store ((side MAX t).adjust s.mem)).goto t (.run ⟨.unlock, i⟩) := by
  have hgoto : ∀ {t : P ⊕ C} {l l' : Loc}, s.status t = .run l → l'.counted = l.counted → ∀ u,
      (Function.update s.status t (.run l') u).loc.counted = (s.status u).loc.counted := by
    intro t l l' hs hl u
    rcases eq_or_ne u t with rfl | hu
    · simp [hs, hl]
    · simp [Function.update_of_ne hu]
  cases h with
  | enter hs _ | leave hs _ | blocked hs _ | clear hs _ | lock hs _ =>
      exact Or.inl ⟨rfl, hgoto hs rfl⟩
  | @slot t i hs => exact Or.inl ⟨slot_count MAX t i s.mem, hgoto hs rfl⟩
  | adjust hs => exact Or.inr ⟨_, _, hs, rfl⟩
  | unlock hs _ => exact Or.inl ⟨rfl, hgoto hs rfl⟩

variable [Fintype P] [Fintype C]

/-- The counter is the number of increments minus the number of decrements. -/
def Balanced (s : St P C) : Prop := s.mem.count = ∑ t, net t (s.status t)

theorem Balanced.move {MAX N : ℕ} {s s' : St P C} {e : Option (Event (Token P))}
    (h : Balanced s) (hm : Move MAX N s e s') : Balanced s' := by
  have hb : s.mem.count = ∑ u, net u (s.status u) := h
  rcases hm.counts with ⟨hcount, hsame⟩ | ⟨t, i, hs, rfl⟩
  · rw [Balanced, hcount, hb]
    refine Finset.sum_congr rfl fun u _ => ?_
    cases u <;> simp only [net, hsame]
  · rw [Balanced, State.sum_goto, State.store_status, hs, State.goto_mem, State.store_mem, ← hb]
    cases t with
    | inl p => simp [side, producerSide, Mem.incr, net, Loc.counted]
    | inr c => simp [side, consumerSide, Mem.decr, net, Loc.counted]; omega

theorem balanced {MAX N : ℕ} {as : List (Action (P ⊕ C) (Event (Token P)))} {s : St P C}
    (h : (system P C MAX N).Exec as s) : Balanced s := by
  refine Lts.Exec.invariant (I := fun _ s => Balanced s) ?_ ?_ h
  · rintro s rfl
    rw [Balanced, Finset.sum_eq_zero]
    · rfl
    · rintro (p | c) _ <;> simp [start, net, Loc.counted]
  · intro as s a s' hr hI hs
    exact hI.move (move_of_step (fits hr).running hs)

/-- The balance, with the two sides apart. -/
theorem balanced_sides {MAX N : ℕ} {as : List (Action (P ⊕ C) (Event (Token P)))} {s : St P C}
    (h : (system P C MAX N).Exec as s) :
    s.mem.count = ∑ p : P, ((s.status (.inl p)).loc.counted : ℤ)
      - ∑ c : C, ((s.status (.inr c)).loc.counted : ℤ) := by
  have hb : s.mem.count = ∑ t, net t (s.status t) := balanced h
  rw [hb, Fintype.sum_sum_type]
  simp [net, sub_eq_add_neg]

omit [DecidableEq P] [DecidableEq C] [Fintype P] [Fintype C] in
theorem counted_le {N : ℕ} {s : St P C} (h : Fits N s) (t : P ⊕ C) :
    (s.status t).loc.counted ≤ N := by
  obtain ⟨⟨pc, i⟩, hl, hr⟩ := h t
  rw [hl]
  cases pc <;> simp only [Loc.InRange, Loc.counted, Status.loc_run] at hr ⊢ <;> omega

omit [DecidableEq P] [DecidableEq C] [Fintype P] [Fintype C] in
/-- A thread past its test has an update left. -/
theorem counted_lt {N : ℕ} {s : St P C} (h : Fits N s) {t : P ⊕ C} {l : Loc}
    (hs : s.status t = .run l) (hl : l.Cleared) : (s.status t).loc.counted < N := by
  have hr := h.at hs
  obtain ⟨pc, i⟩ := l
  rw [hs]
  cases pc <;> simp only [Loc.InRange, Loc.counted, Loc.Cleared, Status.loc_run] at hr hl ⊢ <;>
    exact hr

/-! ### What a thread past its test finds -/

/-- What the threads of a side spin for: free slots for the producers, tokens for the consumers. -/
def avail {τ : Type} (MAX : ℕ) (producers : Bool) (g : Mem τ) : ℤ :=
  if producers then MAX - g.count else g.count

omit [DecidableEq P] [DecidableEq C] [Fintype P] [Fintype C] in
theorem blocked_iff (MAX : ℕ) (t : P ⊕ C) (g : Mem (Token P)) :
    (side MAX t).blocked g = true ↔ avail MAX t.isLeft g = 0 := by
  cases t <;> simp [side, producerSide, consumerSide, avail]
  omega

omit [DecidableEq P] [DecidableEq C] [Fintype P] [Fintype C] in
/-- An update uses up one of what its own side spins for, and provides one for the other side. -/
theorem avail_adjust (MAX : ℕ) (t : P ⊕ C) (b : Bool) (g : Mem (Token P)) :
    avail MAX b ((side MAX t).adjust g) = avail MAX b g + if t.isLeft = b then -1 else 1 := by
  cases t <;> cases b <;> simp [side, producerSide, consumerSide, avail, Mem.incr, Mem.decr] <;>
    omega

/-- The threads of side `b` that have passed their test find something left. -/
def Spare (MAX : ℕ) (b : Bool) (s : St P C) : Prop :=
  ∀ t l, t.isLeft = b → s.status t = .run l → l.Cleared → 0 < avail MAX b s.mem

/-- **A side is kept**: it has not used up more than there was, and whoever has passed the test
finds what it tested for. -/
structure Kept (MAX : ℕ) (b : Bool) (s : St P C) : Prop where
  nonneg : 0 ≤ avail MAX b s.mem
  spare : Spare MAX b s

omit [Fintype P] [Fintype C] in
/-- A thread moves without touching the counter. -/
theorem Kept.goto {MAX : ℕ} {b : Bool} {s : St P C} (h : Kept MAX b s) {t : P ⊕ C} {l : Loc}
    (hl : t.isLeft = b → l.Cleared → 0 < avail MAX b s.mem) : Kept MAX b (s.goto t (.run l)) where
  nonneg := h.nonneg
  spare u l' hu hs hl' := by
    rcases eq_or_ne u t with rfl | hut
    · obtain rfl : l = l' := by simpa using hs
      exact hl hu hl'
    · exact h.spare u l' hu (by simpa [Function.update_of_ne hut] using hs) hl'

/-- What suffices for side `b`: it has one thread at most, or its threads cannot use up what there
is, or there never is anything. -/
def Suffices (P C : Type) [DecidableEq P] [DecidableEq C] (MAX N : ℕ) (b : Bool) : Prop :=
  (∀ t u : P ⊕ C, t.isLeft = b → u.isLeft = b → t = u) ∨
    (∀ as s, (system P C MAX N).Exec as s → Spare MAX b s) ∨
      ∀ as s, (system P C MAX N).Exec as s → avail MAX b s.mem ≤ 0

omit [Fintype P] [Fintype C] in
/-- The update of the counter by a thread of the side itself, or of the other one. -/
theorem Kept.adjust {MAX N : ℕ} {b : Bool} (hb : Suffices P C MAX N b)
    {as : List (Action (P ⊕ C) (Event (Token P)))} {s : St P C} {a : Action (P ⊕ C) _}
    (h : Kept MAX b s) (hr : (system P C MAX N).Exec as s) {t : P ⊕ C} {i : ℕ}
    (hs : s.status t = .run ⟨.adjust, i⟩)
    (hstep : (system P C MAX N).step s a
      ((s.store ((side MAX t).adjust s.mem)).goto t (.run ⟨.unlock, i⟩))) :
    Kept MAX b ((s.store ((side MAX t).adjust s.mem)).goto t (.run ⟨.unlock, i⟩)) := by
  have havail := avail_adjust MAX t b s.mem
  have hnonneg := h.nonneg
  by_cases htb : t.isLeft = b
  · -- `t` itself is past its test, so it uses up something that is there
    have hpos := h.spare t _ htb hs trivial
    simp only [htb, if_true] at havail
    refine ⟨by simp only [State.goto_mem, State.store_mem]; omega, ?_⟩
    rcases hb with hone | hspare | hno
    · intro u l hu hsu hl
      obtain rfl := hone t u htb hu
      obtain rfl : (⟨.unlock, i⟩ : Loc) = l := by simpa using hsu
      exact hl.elim
    · exact hspare _ _ (hr.trans (Lts.Run.single hstep))
    · have := hno _ _ hr
      omega
  · simp only [htb, if_false] at havail
    refine ⟨by simp only [State.goto_mem, State.store_mem]; omega, fun u l hu hsu hl => ?_⟩
    have hut : u ≠ t := fun hut => htb (hut ▸ hu)
    have hpos := h.spare u l hu (by simpa [Function.update_of_ne hut] using hsu) hl
    simp only [State.goto_mem, State.store_mem]
    omega

omit [Fintype P] [Fintype C] in
/-- **A side for which one of the reasons suffices is kept in every reachable state.** -/
theorem kept {MAX N : ℕ} {b : Bool} (hb : Suffices P C MAX N b)
    {as : List (Action (P ⊕ C) (Event (Token P)))} {s : St P C}
    (h : (system P C MAX N).Exec as s) : Kept MAX b s := by
  refine Lts.Exec.invariant (I := fun _ s => Kept MAX b s) ?_ ?_ h
  · rintro s rfl
    refine ⟨by cases b <;> simp [avail, start], fun t l _ hs hl => ?_⟩
    obtain rfl : (⟨.head, 0⟩ : Loc) = l := by simpa [start] using hs
    exact hl.elim
  · intro as s a s' hr hk hs
    have hm := move_of_step (fits hr).running hs
    generalize a.event = e at hm
    cases hm with
    | enter _ _ | leave _ _ | blocked _ _ => exact hk.goto fun _ hl => hl.elim
    | @clear t i _ hclear =>
        -- the test that lets the thread pass finds something
        refine hk.goto fun ht _ => ?_
        have hne : avail MAX t.isLeft s.mem ≠ 0 := fun h0 => by
          rw [(blocked_iff MAX t s.mem).2 h0] at hclear
          cases hclear
        rw [ht] at hne
        exact lt_of_le_of_ne hk.nonneg (Ne.symm hne)
    | @lock t i hl _ =>
        exact Kept.goto (s := s.give () _) ⟨hk.nonneg, hk.spare⟩ fun ht _ =>
          hk.spare t _ ht hl trivial
    | @slot t i hl =>
        have hcount := slot_count MAX t i s.mem
        have hsame : avail MAX b ((side MAX t).slot i s.mem) = avail MAX b s.mem := by
          simp only [avail, hcount]
        refine Kept.goto (s := s.store _) ⟨hsame ▸ hk.nonneg, fun u l hu hsu hlu => ?_⟩
          fun ht _ => ?_
        · exact hsame ▸ hk.spare u l hu hsu hlu
        · exact hsame ▸ hk.spare t _ ht hl trivial
    | adjust hl => exact hk.adjust hb hr hl hs
    | unlock _ _ => exact Kept.goto (s := s.give () _) ⟨hk.nonneg, hk.spare⟩ fun _ hl => hl.elim

/-! ### Numbers of threads that suffice -/

/-- The producers are kept when there is one at most, or when all they write fits the array. -/
theorem suffices_producers {MAX N : ℕ} (h : Fintype.card P ≤ 1 ∨ Fintype.card P * N ≤ MAX) :
    Suffices P C MAX N true := by
  rcases h with hP | hfits
  · have hsub : Subsingleton P := Fintype.card_le_one_iff_subsingleton.1 hP
    refine Or.inl fun t u ht hu => ?_
    cases t <;> cases u <;> simp at ht hu
    exact congrArg Sum.inl (Subsingleton.elim _ _)
  · refine Or.inr (Or.inl fun as s hr t l ht hs hl => ?_)
    cases t with
    | inr c => cases ht
    | inl p =>
        -- `p` has an update left, so fewer than `MAX` have been made
        have hlt : ((s.status (.inl p)).loc.counted : ℤ) < N := by
          exact_mod_cast counted_lt (fits hr) hs hl
        have hsum : ∑ q : P, ((s.status (.inl q)).loc.counted : ℤ) < ∑ _q : P, (N : ℤ) := by
          refine Finset.sum_lt_sum (fun q _ => ?_) ⟨p, Finset.mem_univ p, hlt⟩
          exact_mod_cast counted_le (fits hr) (.inl q)
        have hgets : 0 ≤ ∑ c : C, ((s.status (.inr c)).loc.counted : ℤ) :=
          Finset.sum_nonneg fun c _ => Int.natCast_nonneg _
        have hb := balanced_sides hr
        have hmax : (Fintype.card P : ℤ) * N ≤ MAX := by exact_mod_cast hfits
        simp only [Finset.sum_const, Finset.card_univ, nsmul_eq_mul] at hsum
        simp only [avail, if_true]
        omega

/-- The consumers are kept when there is one at most, or when nothing is ever written. -/
theorem suffices_consumers {MAX N : ℕ} (h : Fintype.card C ≤ 1 ∨ Fintype.card P * N = 0) :
    Suffices P C MAX N false := by
  rcases h with hC | hnone
  · have hsub : Subsingleton C := Fintype.card_le_one_iff_subsingleton.1 hC
    refine Or.inl fun t u ht hu => ?_
    cases t <;> cases u <;> simp at ht hu
    exact congrArg Sum.inr (Subsingleton.elim _ _)
  · refine Or.inr (Or.inr fun as s hr => ?_)
    have hputs : ∑ p : P, ((s.status (.inl p)).loc.counted : ℤ) ≤ ∑ _p : P, (N : ℤ) :=
      Finset.sum_le_sum fun p _ => by exact_mod_cast counted_le (fits hr) (.inl p)
    have hgets : 0 ≤ ∑ c : C, ((s.status (.inr c)).loc.counted : ℤ) :=
      Finset.sum_nonneg fun c _ => Int.natCast_nonneg _
    have hb := balanced_sides hr
    have hzero : (Fintype.card P : ℤ) * N = 0 := by exact_mod_cast hnone
    simp only [Finset.sum_const, Finset.card_univ, nsmul_eq_mul] at hputs
    simp only [avail, Bool.false_eq_true, if_false]
    omega

/-! ### Accesses within the array -/

/-- Every access of every run is to a slot of the array. -/
def InRange (P C : Type) [DecidableEq P] [DecidableEq C] (MAX N : ℕ) : Prop :=
  ∀ as s, (system P C MAX N).Exec as s →
    ∀ e ∈ as.filterMap Action.event, 0 ≤ e.slot ∧ e.slot < MAX

omit [Fintype P] [Fintype C] in
/-- A property of every access, from the states in which they are made. -/
theorem forall_events {MAX N : ℕ} {Q : Event (Token P) → Prop}
    (hQ : ∀ as s, (system P C MAX N).Exec as s → ∀ t i, s.status t = .run ⟨.slot, i⟩ →
      Q ((side MAX t).event i s.mem))
    {as : List (Action (P ⊕ C) (Event (Token P)))} {s : St P C}
    (h : (system P C MAX N).Exec as s) : ∀ e ∈ as.filterMap Action.event, Q e := by
  intro e he
  obtain ⟨a, ha, hae⟩ := List.mem_filterMap.1 he
  refine Lts.Exec.forall_labels (Q := fun a => ∀ e, a.event = some e → Q e) ?_ h a ha e hae
  intro as s a s' hr hs e he
  obtain ⟨t, i, hst, rfl, -⟩ := (move_of_step (fits hr).running hs).visible he
  exact hQ as s hr t i hst

omit [Fintype P] [Fintype C] in
/-- When both sides are kept every access is within the array. -/
theorem inRange_of_kept {MAX N : ℕ} (hput : Suffices P C MAX N true)
    (hget : Suffices P C MAX N false) : InRange P C MAX N := by
  intro as s h
  refine forall_events (fun as s hr t i hs => ?_) h
  have hp := kept hput hr
  have hg := kept hget hr
  have hp0 := hp.nonneg
  have hg0 := hg.nonneg
  simp only [avail, if_true] at hp0
  simp only [avail, Bool.false_eq_true, if_false] at hg0
  cases t with
  | inl p =>
      have hlt := hp.spare (.inl p) _ rfl hs trivial
      simp only [avail, if_true] at hlt
      simp only [side, producerSide, Event.slot]
      omega
  | inr c =>
      have hlt := hg.spare (.inr c) _ rfl hs trivial
      simp only [avail, Bool.false_eq_true, if_false] at hlt
      simp only [side, consumerSide, Event.slot]
      omega

omit [Fintype P] [Fintype C] in
/-- Without any slot nobody gets past the test. -/
theorem inRange_zero (N : ℕ) : InRange P C 0 N := by
  have hstuck : ∀ as s, (system P C 0 N).Exec as s →
      s.mem.count = 0 ∧ ∀ t l, s.status t = .run l → ¬ l.Cleared := by
    intro as s h
    refine Lts.Exec.invariant
      (I := fun _ s => s.mem.count = 0 ∧ ∀ t l, s.status t = .run l → ¬ l.Cleared) ?_ ?_ h
    · rintro s rfl
      refine ⟨rfl, fun t l hs hl => ?_⟩
      obtain rfl : (⟨.head, 0⟩ : Loc) = l := by simpa [start] using hs
      exact hl
    · rintro as s a s' hr ⟨hcount, hno⟩ hs
      have hgoto : ∀ {t : P ⊕ C} {l : Loc}, ¬ l.Cleared →
          ∀ u l', Function.update s.status t (.run l) u = .run l' → ¬ l'.Cleared := by
        intro t l hl u l' hu
        rcases eq_or_ne u t with rfl | hut
        · obtain rfl : l = l' := by simpa using hu
          exact hl
        · exact hno u l' (by simpa [Function.update_of_ne hut] using hu)
      have hm := move_of_step (fits hr).running hs
      generalize a.event = e at hm
      cases hm with
      | enter _ _ | leave _ _ | blocked _ _ => exact ⟨hcount, hgoto id⟩
      | @clear t i _ hclear =>
          have hblocked : (side 0 t).blocked s.mem = true := by
            cases t <;> simp [side, producerSide, consumerSide, hcount]
          rw [hblocked] at hclear
          cases hclear
      | lock hl _ | slot hl | adjust hl => exact absurd trivial (hno _ _ hl)
      | unlock _ _ => exact ⟨hcount, hgoto id⟩
  intro as s h
  exact forall_events (fun as s hr t i hs => absurd trivial ((hstuck as s hr).2 t _ hs)) h

/-! ### Two threads that pass the test together -/

omit [Fintype P] [Fintype C] in
/-- A thread passes its test and stops before the mutex. -/
theorem run_cleared (MAX : ℕ) {N : ℕ} {s : St P C} {t : P ⊕ C} {i : ℕ}
    (hs : s.status t = .run ⟨.head, i⟩) (hi : i < N)
    (hb : (side MAX t).blocked s.mem = false) :
    ∃ as, (system P C MAX N).Run s as (s.goto t (.run ⟨.lock, i⟩)) := by
  have h₁ : Move MAX N s none (s.goto t (.run ⟨.spin, i⟩)) := Move.enter hs hi
  have h₂ : Move MAX N (s.goto t (.run ⟨.spin, i⟩)) none (s.goto t (.run ⟨.lock, i⟩)) := by
    simpa using (Move.clear (t := t) (i := i) (by simp) hb :
      Move MAX N (s.goto t (.run ⟨.spin, i⟩)) none _)
  obtain ⟨a₁, h₁, -⟩ := step_of_move h₁
  obtain ⟨a₂, h₂, -⟩ := step_of_move h₂
  exact ⟨_, .cons h₁ (.single h₂)⟩

omit [Fintype P] [Fintype C] in
/-- From there it accesses its slot as soon as the mutex is free. -/
theorem run_slot (MAX : ℕ) {N : ℕ} {s : St P C} {t : P ⊕ C} {i : ℕ}
    (hs : s.status t = .run ⟨.lock, i⟩) (ho : s.owner () = none) :
    ∃ as, (system P C MAX N).Run s as (((s.store ((side MAX t).slot i s.mem)).give ()
        (some t)).goto t (.run ⟨.adjust, i⟩)) ∧
      (side MAX t).event i s.mem ∈ as.filterMap Action.event := by
  have h₁ : Move MAX N s none ((s.give () (some t)).goto t (.run ⟨.slot, i⟩)) := Move.lock hs ho
  have h₂ : Move MAX N ((s.give () (some t)).goto t (.run ⟨.slot, i⟩))
      (some ((side MAX t).event i s.mem))
      (((s.store ((side MAX t).slot i s.mem)).give () (some t)).goto t (.run ⟨.adjust, i⟩)) := by
    simpa using (Move.slot (t := t) (i := i) (by simp) :
      Move MAX N ((s.give () (some t)).goto t (.run ⟨.slot, i⟩)) _ _)
  obtain ⟨a₁, h₁, e₁⟩ := step_of_move h₁
  obtain ⟨a₂, h₂, e₂⟩ := step_of_move h₂
  exact ⟨_, .cons h₁ (.single h₂), by simp [e₁, e₂]⟩

omit [Fintype P] [Fintype C] in
/-- It updates the counter and releases the mutex. -/
theorem run_update (MAX : ℕ) {N : ℕ} {s : St P C} {t : P ⊕ C} {i : ℕ}
    (ho : s.owner () = none) :
    ∃ as, (system P C MAX N).Run ((s.give () (some t)).goto t (.run ⟨.adjust, i⟩)) as
      ((s.store ((side MAX t).adjust s.mem)).goto t (.run ⟨.head, i + 1⟩)) := by
  set g := (side MAX t).adjust s.mem with hg
  have h₁ : Move MAX N ((s.give () (some t)).goto t (.run ⟨.adjust, i⟩)) none
      (((s.store g).give () (some t)).goto t (.run ⟨.unlock, i⟩)) := by
    simpa using (Move.adjust (t := t) (i := i) (by simp) :
      Move MAX N ((s.give () (some t)).goto t (.run ⟨.adjust, i⟩)) none _)
  have h₂ : Move MAX N (((s.store g).give () (some t)).goto t (.run ⟨.unlock, i⟩)) none
      ((s.store g).goto t (.run ⟨.head, i + 1⟩)) := by
    have hfree : (s.store g).give () none = s.store g := State.give_self ho
    simpa [hfree] using (Move.unlock (t := t) (i := i) (by simp) (by simp) :
      Move MAX N (((s.store g).give () (some t)).goto t (.run ⟨.unlock, i⟩)) none _)
  obtain ⟨a₁, h₁, -⟩ := step_of_move h₁
  obtain ⟨a₂, h₂, -⟩ := step_of_move h₂
  exact ⟨_, .cons h₁ (.single h₂)⟩

omit [Fintype P] [Fintype C] in
/-- **A race**: two threads pass the test on the same buffer, and the second one makes its access
after the first has made its own. -/
theorem run_race (MAX : ℕ) {N : ℕ} {s : St P C} {t u : P ⊕ C} (htu : t ≠ u) {i j : ℕ}
    (ht : s.status t = .run ⟨.head, i⟩) (hi : i < N) (hu : s.status u = .run ⟨.head, j⟩)
    (hj : j < N) (ho : s.owner () = none) (hbt : (side MAX t).blocked s.mem = false)
    (hbu : (side MAX u).blocked s.mem = false) :
    ∃ as s', (system P C MAX N).Run s as s' ∧
      (side MAX u).event j ((side MAX t).adjust ((side MAX t).slot i s.mem)) ∈
        as.filterMap Action.event := by
  obtain ⟨as₁, h₁⟩ := run_cleared MAX (N := N) ht hi hbt
  obtain ⟨as₂, h₂⟩ := run_cleared MAX (N := N) (s := s.goto t (.run ⟨.lock, i⟩)) (t := u)
    (by simpa [Function.update_of_ne htu.symm] using hu) hj hbu
  set s₂ := (s.goto t (.run ⟨.lock, i⟩)).goto u (.run ⟨.lock, j⟩) with hs₂
  have hmem : s₂.mem = s.mem := rfl
  obtain ⟨as₃, h₃, -⟩ := run_slot MAX (N := N) (s := s₂) (t := t) (i := i)
    (by simp [hs₂, Function.update_of_ne htu]) ho
  obtain ⟨as₄, h₄⟩ := run_update MAX (N := N)
    (s := s₂.store ((side MAX t).slot i s₂.mem)) (t := t) (i := i) ho
  obtain ⟨as₅, h₅, he⟩ := run_slot MAX (N := N)
    (s := ((s₂.store ((side MAX t).slot i s₂.mem)).store ((side MAX t).adjust
      ((side MAX t).slot i s₂.mem))).goto t (.run ⟨.head, i + 1⟩)) (t := u) (i := j)
    (by simp [hs₂, Function.update_of_ne htu.symm]) ho
  refine ⟨_, _, h₁.trans (h₂.trans (h₃.trans (h₄.trans h₅))), ?_⟩
  simp only [List.filterMap_append, List.mem_append]
  rw [State.goto_mem, State.store_mem, hmem] at he
  exact Or.inr (Or.inr (Or.inr (Or.inr he)))

omit [Fintype C] in
/-- Producers fill the buffer one after the other, each within the number of iterations it may
use. -/
theorem run_fill {MAX N : ℕ} (cap : P → ℕ) (hcap : ∀ p, cap p ≤ N) {n : ℕ} (hn : n ≤ MAX)
    (hsum : n ≤ ∑ p, cap p) :
    ∃ (as : List (Action (P ⊕ C) (Event (Token P)))) (s : St P C) (f : P → ℕ),
      (system P C MAX N).Exec as s ∧
      (∀ p, s.status (.inl p) = .run ⟨.head, f p⟩ ∧ f p ≤ cap p) ∧
      (∀ c, s.status (.inr c) = .run ⟨.head, 0⟩) ∧ s.owner () = none ∧ s.mem.count = n ∧
      ∑ p, f p = n := by
  induction n with
  | zero => exact ⟨[], start P C, fun _ => 0, Lts.Exec.init (T := system P C MAX N) rfl,
      fun p => ⟨rfl, Nat.zero_le _⟩, fun c => rfl, rfl, rfl, by simp⟩
  | succ n ih =>
      obtain ⟨as, s, f, hr, hp, hc, ho, hcount, hf⟩ := ih (by omega) (by omega)
      -- some producer has an iteration left that it may use
      obtain ⟨p, -, hlt⟩ := Finset.exists_lt_of_sum_lt (s := Finset.univ) (f := f) (g := cap)
        (by omega)
      have hclear : (side (C := C) MAX (.inl p)).blocked s.mem = false := by
        simp [side, producerSide, hcount]
        omega
      obtain ⟨bs, s', hrun, -, hst, ho', hmem⟩ := run_iteration MAX (N := N) (hp p).1
        (lt_of_lt_of_le hlt (hcap p)) ho hclear
      refine ⟨as ++ bs, s', Function.update f p (f p + 1), hr.trans hrun, fun q => ?_, fun c => ?_,
        ho', ?_, ?_⟩
      · rcases eq_or_ne q p with rfl | hq
        · refine ⟨by simp [hst], ?_⟩
          rw [Function.update_self]
          omega
        · simpa [hst, Function.update_of_ne hq,
            Function.update_of_ne (Sum.inl_injective.ne hq)] using hp q
      · simpa [hst] using hc c
      · simp [hmem, side, producerSide, hcount]
      · have hupd := Lts.sum_update (fun _ x => x) f p (f p + 1)
        omega

omit [Fintype C] in
/-- With two producers and more to write than fits, the second of them writes past the array. -/
theorem not_inRange_of_producers {MAX N : ℕ} (hMAX : 1 ≤ MAX) (hP : 1 < Fintype.card P)
    (hfull : MAX < Fintype.card P * N) : ¬ InRange P C MAX N := by
  intro hall
  obtain ⟨a, b, hab⟩ := Fintype.one_lt_card_iff.1 hP
  have hN : 1 ≤ N := Nat.one_le_iff_ne_zero.2 fun h0 => by simp [h0] at hfull
  -- `a` and `b` keep one iteration each, and the others write the rest
  let cap : P → ℕ := Function.update (Function.update (fun _ => N) a (N - 1)) b (N - 1)
  have hcapa : cap a = N - 1 := by simp [cap, Function.update_of_ne hab]
  have hcapb : cap b = N - 1 := by simp [cap]
  have hcap : ∀ p, cap p ≤ N := by
    intro p
    rcases eq_or_ne p b with rfl | hpb
    · omega
    · rcases eq_or_ne p a with rfl | hpa
      · omega
      · simp [cap, Function.update_of_ne hpb, Function.update_of_ne hpa]
  have hsum : MAX - 1 ≤ ∑ p, cap p := by
    have h₁ := Lts.sum_update (fun _ x => x) (fun _ : P => N) a (N - 1)
    have h₂ := Lts.sum_update (fun _ x => x) (Function.update (fun _ : P => N) a (N - 1)) b (N - 1)
    rw [Function.update_of_ne hab.symm] at h₂
    simp only [Finset.sum_const, Finset.card_univ, nsmul_eq_mul, Nat.cast_id] at h₁
    have hdef : ∑ p, cap p
        = ∑ p, Function.update (Function.update (fun _ => N) a (N - 1)) b (N - 1) p := rfl
    omega
  obtain ⟨as, s, f, hr, hp, -, ho, hcount, -⟩ := run_fill (C := C) cap hcap (Nat.sub_le MAX 1) hsum
  have hclear : ∀ p : P, (side (C := C) MAX (.inl p)).blocked s.mem = false := by
    intro p
    simp [side, producerSide, hcount]
    omega
  have hfa := (hp a).2
  have hfb := (hp b).2
  obtain ⟨bs, s', hrun, he⟩ := run_race MAX (N := N) (Sum.inl_injective.ne hab)
    (hp a).1 (by omega) (hp b).1 (by omega) ho (hclear a) (hclear b)
  have hmem := List.mem_append_right (as.filterMap Action.event) he
  rw [← List.filterMap_append] at hmem
  have hin := hall _ _ (hr.trans hrun) _ hmem
  simp only [side, producerSide, Event.slot, Mem.incr_count, Mem.write_count, hcount] at hin
  omega

/-- With two consumers and something to read, the second of them reads before the array. -/
theorem not_inRange_of_consumers {MAX N : ℕ} (hMAX : 1 ≤ MAX) (hC : 1 < Fintype.card C)
    (hsome : Fintype.card P * N ≠ 0) : ¬ InRange P C MAX N := by
  intro hall
  obtain ⟨a, b, hab⟩ := Fintype.one_lt_card_iff.1 hC
  have hpos : 1 ≤ Fintype.card P * N := Nat.one_le_iff_ne_zero.2 hsome
  have hN : 1 ≤ N := Nat.one_le_iff_ne_zero.2 fun h0 => by simp [h0] at hpos
  obtain ⟨as, s, f, hr, -, hc, ho, hcount, -⟩ := run_fill (P := P) (C := C) (N := N)
    (fun _ => N) (fun _ => le_refl N) hMAX (by simpa using hpos)
  have hclear : ∀ c : C, (side (P := P) MAX (.inr c)).blocked s.mem = false := by
    intro c
    simp [side, consumerSide, hcount]
  obtain ⟨bs, s', hrun, he⟩ := run_race MAX (N := N) (Sum.inr_injective.ne hab)
    (hc a) hN (hc b) hN ho (hclear a) (hclear b)
  have hmem := List.mem_append_right (as.filterMap Action.event) he
  rw [← List.filterMap_append] at hmem
  have hin := hall _ _ (hr.trans hrun) _ hmem
  simp only [side, consumerSide, Event.slot, Mem.decr_count, hcount] at hin
  omega

/-- **When the spinning buffer stays within its array**: the array has no slot, or there is one
producer at most or all that is ever written fits, and there is one consumer at most or nothing is
ever written.  With two producers or two consumers the program leaves its array under some
schedule. -/
theorem slots_in_range_iff (MAX N : ℕ) : InRange P C MAX N ↔
    MAX = 0 ∨ (Fintype.card P ≤ 1 ∨ Fintype.card P * N ≤ MAX) ∧
      (Fintype.card C ≤ 1 ∨ Fintype.card P * N = 0) := by
  constructor
  · intro hall
    by_cases hMAX : MAX = 0
    · exact Or.inl hMAX
    · refine Or.inr ⟨?_, ?_⟩
      · by_contra hno
        exact not_inRange_of_producers (by omega) (by omega) (by omega) hall
      · by_contra hno
        exact not_inRange_of_consumers (by omega) (by omega) (by omega) hall
  · rintro (rfl | ⟨hP, hC⟩)
    · exact inRange_zero N
    · exact inRange_of_kept (suffices_producers hP) (suffices_consumers hC)

end SpinBuffer
