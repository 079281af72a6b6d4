/-
**What is known of the signals at each place of a program.**

The programs of `AupPrograms/Signals.lean` test sets of signals and print what they find.  What is
in these sets can be computed from the program and from the results of its calls of `sigprocmask`,
whose failure does not end it: which signals are blocked and caught is known exactly, which ones are
pending from below and, but for the ones that are sent from elsewhere, from above.  Signals may come
at any time; the knowledge does not depend on it.

Main definitions:

* `Signals.Known`, `Signals.Known.after` — what is known, and what an instruction makes of it;
* `Signals.Agrees` — a process is as it is known to be;
* `Signals.texts` — the texts that a program can print;
* `Signals.Checks` — a condition at each place of a program.

Main results:

* `Signals.Agrees.changes` — **knowledge stays correct** in every step;
* `Signals.Outline.printed_isPrefix` — **what has been printed is the beginning of one of the
  texts**;
* `Signals.Outline.known` — what is known of a process in any state;
* `Signals.Outline.known_of_did`, `Signals.Outline.known_of_handled` — what is known when an
  instruction is executed or a handler runs.
-/

import AupPrograms.Signals

set_option relaxedAutoImplicit false
set_option autoImplicit false

universe u

namespace Signals

variable {E : Type u}

/-! ### Knowledge -/

/-- What is known of a process. -/
structure Known where
  sigset : Finset Sig
  blocked : Finset Sig
  caught : Finset Sig
  /-- Signals that are pending. -/
  must : Finset Sig
  /-- Signals whose handler runs before the next step, if it has not run. -/
  due : Finset Sig
  /-- The signals that can be pending without having come from elsewhere. -/
  may : Finset Sig
  /-- Signals that are in `sigset_pending`. -/
  shown : Finset Sig
  /-- All signals that can be in `sigset_pending`. -/
  asked : Finset Sig
  /-- The ones that can be there without having come from elsewhere. -/
  mayShow : Finset Sig
  /-- The results of the calls of `sigprocmask` that are to come. -/
  masks : List Bool
  deriving DecidableEq

def Known.start (masks : List Bool) : Known := ⟨∅, ∅, ∅, ∅, ∅, ∅, ∅, ∅, ∅, masks⟩

/-- The process sends itself a signal. -/
def Known.kill (K : Known) (s : Sig) : Known :=
  if s.cancels = ∅ ∧ s ∈ K.blocked then
    { K with may := insert s K.may, must := insert s K.must }
  else if s.cancels = ∅ ∧ s ∈ K.caught then
    { K with may := insert s K.may, due := insert s K.due }
  else { K with may := insert s K.may }

/-- `sigprocmask` returns. -/
def Known.setmask (K : Known) : Known :=
  match K.masks with
  | [] => K
  | false :: ms => { K with masks := ms }
  | true :: ms =>
      { K with
        blocked := K.sigset.erase .stop
        must := K.must ∩ K.sigset
        due := K.due ∪ (K.must ∩ K.caught) \ K.sigset
        masks := ms }

/-- What is known after an instruction that has not ended the program. -/
def Known.after (K : Known) : Instr E → Known
  | .sigemptyset => { K with sigset := ∅ }
  | .sigaddset s => { K with sigset := insert s K.sigset }
  | .sigdelset s => { K with sigset := K.sigset.erase s }
  | .sigprocmask => K.setmask
  | .signal s => { K with caught := insert s K.caught }
  | .kill s => K.kill s
  | .sigpending => { K with shown := K.must, asked := K.blocked, mayShow := K.may }
  | .print _ | .ifMember _ _ _ | .ifPending _ _ _ | .sleep | .fork | .wait => K

/-- What is known of a child. -/
def Known.child (K : Known) (masks : List Bool) : Known :=
  { K with must := ∅, due := ∅, may := ∅, mayShow := K.asked, masks := masks }

/-- What an instruction can print. -/
def Known.lines (K : Known) : Instr E → List (List E)
  | .print e => [[e]]
  | .ifMember s e e' => if s ∈ K.sigset then [[e]] else [e'.toList]
  | .ifPending s e e' =>
      if s ∈ K.shown then [[e]] else if s ∈ K.asked then [[e], e'.toList] else [e'.toList]
  | _ => [[]]

/-- The texts that a program can print. -/
def texts : List (Instr E) → Known → List (List E)
  | [], _ => [[]]
  | i :: k, K => (K.lines i).flatMap fun l => (texts k (K.after i)).map (l ++ ·)

/-- `Q` holds of what is known at each place, and `R` of each instruction. -/
def Checks (Q : Known → Prop) (R : Instr E → Known → Prop) : List (Instr E) → Known → Prop
  | [], K => Q K
  | i :: k, K => Q K ∧ R i K ∧ Checks Q R k (K.after i)

instance decidableChecks (Q : Known → Prop) (R : Instr E → Known → Prop) [DecidablePred Q]
    [∀ i, DecidablePred (R i)] : ∀ is K, Decidable (Checks Q R is K)
  | [], K => inferInstanceAs (Decidable (Q K))
  | i :: k, K =>
      have := decidableChecks Q R k (K.after i)
      inferInstanceAs (Decidable (Q K ∧ R i K ∧ Checks Q R k (K.after i)))

/-- **A process is as it is known to be.**  The signals that have come from elsewhere are `came`,
the ones whose handler has run are `handled`. -/
structure Agrees (K : Known) (came handled : Sig → Prop) (p : Process E) : Prop where
  sigset : p.sigset = K.sigset
  blocked : p.blocked = K.blocked
  caught : p.caught = K.caught
  must : ∀ s ∈ K.must, s ∈ p.pending ∧ s ∈ p.blocked ∧ s.cancels = ∅
  due : ∀ s ∈ K.due, handled s ∨ s ∈ p.pending ∧ s ∉ p.blocked ∧ s ∈ p.caught ∧ s.cancels = ∅
  may : ∀ s ∈ p.pending, s ∈ K.may ∨ came s
  shown : K.shown ⊆ p.sigset_pending
  asked : p.sigset_pending ⊆ K.asked
  mayShow : ∀ s ∈ p.sigset_pending, s ∈ K.mayShow ∨ came s

variable {K : Known} {came came' handled handled' : Sig → Prop} {p q : Process E}

theorem agrees_start (main : List (Instr E)) (masks : List Bool) :
    Agrees (Known.start masks) came handled (start main) := by
  constructor <;> simp [Known.start, start]

theorem Agrees.mono (h : Agrees K came handled p) (hcame : ∀ s, came s → came' s)
    (hhandled : ∀ s, handled s → handled' s) : Agrees K came' handled' p :=
  { h with
    due := fun s hs => (h.due s hs).imp_left (hhandled s)
    may := fun s hs => (h.may s hs).imp_right (hcame s)
    mayShow := fun s hs => (h.mayShow s hs).imp_right (hcame s) }

/-- Nothing is due when the process makes a step of its own. -/
theorem Agrees.handled_of_ready (h : Agrees K came handled p) (hready : p.Ready) :
    ∀ s ∈ K.due, handled s := by
  intro s hs
  rcases h.due s hs with hs | ⟨hpending, hblocked, -, -⟩
  · exact hs
  · exact absurd (hready.2 hpending) hblocked

/-! ### Signals from elsewhere -/

theorem Agrees.raise {s : Sig} (h : Agrees K came handled p) (hs : s ∈ K.may ∨ came s) :
    Agrees K came handled (p.raise s) := by
  have hpending : ∀ t, t.cancels = ∅ → t ∈ p.pending → t ∈ (p.raise s).pending :=
    fun t => mem_pending_raise
  have hcome : ∀ t ∈ (p.raise s).pending, t ∈ K.may ∨ came t := by
    intro t ht
    rcases of_mem_pending_raise ht with rfl | ht
    · exact hs
    · exact h.may t ht
  rw [raise_eq]
  refine { h with must := ?_, due := ?_, may := hcome }
  · intro t ht
    obtain ⟨hmem, hblocked, hcancels⟩ := h.must t ht
    exact ⟨hpending t hcancels hmem, hblocked, hcancels⟩
  · intro t ht
    refine (h.due t ht).imp_right ?_
    rintro ⟨hmem, hblocked, hcaught, hcancels⟩
    exact ⟨hpending t hcancels hmem, hblocked, hcaught, hcancels⟩

theorem Agrees.deliver {s : Sig} {orphaned : Bool} {e : Option (Event E)}
    (h : Agrees K came handled p) (hq : p.deliver s orphaned = some (q, e))
    (hrun : e = some (.handled s) → handled s) : Agrees K came handled q := by
  obtain ⟨-, hblocked, hcaught, heq, -⟩ := deliver_eq hq
  rw [heq]
  refine { h with must := ?_, due := ?_, may := ?_ }
  · intro t ht
    obtain ⟨hmem, htblocked, hcancels⟩ := h.must t ht
    refine ⟨Finset.mem_erase.2 ⟨?_, hmem⟩, htblocked, hcancels⟩
    rintro rfl
    exact hblocked htblocked
  · intro t ht
    rcases h.due t ht with hhandled | ⟨hmem, htblocked, htcaught, hcancels⟩
    · exact Or.inl hhandled
    · by_cases hts : t = s
      · obtain rfl := hts
        exact Or.inl (hrun (hcaught.1 htcaught))
      · exact Or.inr ⟨Finset.mem_erase.2 ⟨hts, hmem⟩, htblocked, htcaught, hcancels⟩
  · intro t ht
    exact h.may t (Finset.mem_of_mem_erase ht)

/-! ### Steps of the process itself -/

theorem Agrees.todo (h : Agrees K came handled p) (k : List (Instr E)) (status : Status) :
    Agrees K came handled { p with todo := k, status := status } :=
  { h with }

/-- The process sends itself a signal. -/
theorem Agrees.kill {s : Sig} (h : Agrees K came handled p) (hrun : p.status ≠ .exited) :
    Agrees (K.kill s) came handled (p.raise s) := by
  have hmay : Agrees { K with may := insert s K.may } came handled p :=
    { h with may := fun t ht => (h.may t ht).imp_left Finset.mem_insert_of_mem }
  have hraise := hmay.raise (s := s) (Or.inl (Finset.mem_insert_self _ _))
  have hself : s ∈ (p.raise s).pending := self_mem_pending_raise hrun
  rw [Known.kill]
  split_ifs with hblocked hcaught
  · refine { hraise with must := fun t ht => ?_ }
    rcases Finset.mem_insert.1 ht with rfl | ht
    · refine ⟨hself, ?_, hblocked.1⟩
      rw [hraise.blocked]
      exact hblocked.2
    · exact hraise.must t ht
  · refine { hraise with due := fun t ht => ?_ }
    rcases Finset.mem_insert.1 ht with rfl | ht
    · refine Or.inr ⟨hself, ?_, ?_, hcaught.1⟩
      · rw [hraise.blocked]
        exact fun hmem => hblocked ⟨hcaught.1, hmem⟩
      · rw [hraise.caught]
        exact hcaught.2
    · exact hraise.due t ht
  · exact hraise

/-- A call of `sigprocmask` that succeeds. -/
theorem Agrees.setmask {ms : List Bool} (h : Agrees K came handled p) (hready : p.Ready)
    (hmasks : K.masks = true :: ms) :
    Agrees K.setmask came handled { p with blocked := p.sigset.erase .stop } := by
  have hset : K.setmask = { K with
      blocked := K.sigset.erase .stop, must := K.must ∩ K.sigset,
      due := K.due ∪ (K.must ∩ K.caught) \ K.sigset, masks := ms } := by
    simp only [Known.setmask, hmasks]
  rw [hset]
  have hblocked : p.sigset.erase .stop = K.sigset.erase .stop := by rw [h.sigset]
  refine { h with blocked := hblocked, must := fun s hs => ?_, due := fun s hs => ?_ }
  · obtain ⟨hmust, hsigset⟩ := Finset.mem_inter.1 hs
    obtain ⟨hpending, -, hcancels⟩ := h.must s hmust
    refine ⟨hpending, Finset.mem_erase.2 ⟨?_, h.sigset ▸ hsigset⟩, hcancels⟩
    rintro rfl
    exact absurd hcancels (by decide)
  · rcases Finset.mem_union.1 hs with hs | hs
    · exact Or.inl (h.handled_of_ready hready s hs)
    · obtain ⟨hs, hsigset⟩ := Finset.mem_sdiff.1 hs
      obtain ⟨hmust, hcaught⟩ := Finset.mem_inter.1 hs
      obtain ⟨hpending, -, hcancels⟩ := h.must s hmust
      refine Or.inr ⟨hpending, fun hmem => hsigset ?_, h.caught ▸ hcaught, hcancels⟩
      exact h.sigset ▸ Finset.mem_of_mem_erase hmem

/-- A call that fails. -/
theorem Agrees.setmask_false {ms : List Bool} (h : Agrees K came handled p)
    (hmasks : K.masks = false :: ms) : Agrees K.setmask came handled p := by
  have hset : K.setmask = { K with masks := ms } := by simp only [Known.setmask, hmasks]
  rw [hset]
  exact { h with }

theorem Agrees.sigpending (h : Agrees K came handled p) :
    Agrees (K.after (.sigpending : Instr E)) came handled
      { p with sigset_pending := p.pending ∩ p.blocked } := by
  refine { h with shown := fun s hs => ?_, asked := ?_, mayShow := fun s hs => ?_ }
  · obtain ⟨hpending, hblocked, -⟩ := h.must s hs
    exact Finset.mem_inter.2 ⟨hpending, hblocked⟩
  · intro s hs
    have hblocked := (Finset.mem_inter.1 hs).2
    rwa [h.blocked] at hblocked
  · exact h.may s (Finset.mem_inter.1 hs).1

/-- **An instruction does what it is known to do**, or it ends the program. -/
theorem Agrees.perform {i : Instr E} {k : List (Instr E)} {ok : Bool}
    (h : Agrees K came handled p) (hready : p.Ready)
    (hmask : i = .sigprocmask → ∃ ms, K.masks = ok :: ms) :
    Agrees (K.after i) came handled (p.perform i k ok).1 ∧ (p.perform i k ok).1.todo = k ∨
      Agrees K came handled (p.perform i k ok).1 ∧ (p.perform i k ok).1.todo = [] ∧
        (p.perform i k ok).2 = none ∧ i ≠ .sigprocmask := by
  have hgo : Agrees K came handled { p with todo := k } := h.todo k p.status
  have hquit : Agrees K came handled p.quit := h.todo [] p.status
  cases i with
  | print _ | ifMember _ _ _ | ifPending _ _ _ | sleep => exact Or.inl ⟨hgo, rfl⟩
  | sigprocmask =>
      obtain ⟨ms, hmasks⟩ := hmask rfl
      cases ok with
      | true => exact Or.inl ⟨hgo.setmask hready hmasks, rfl⟩
      | false => exact Or.inl ⟨hgo.setmask_false hmasks, rfl⟩
  | sigemptyset =>
      cases ok with
      | true => exact Or.inl ⟨{ hgo with sigset := rfl }, rfl⟩
      | false => exact Or.inr ⟨hquit, rfl, rfl, by simp⟩
  | sigaddset s =>
      cases ok with
      | true => exact Or.inl ⟨{ hgo with sigset := congrArg (insert s) h.sigset }, rfl⟩
      | false => exact Or.inr ⟨hquit, rfl, rfl, by simp⟩
  | sigdelset s =>
      cases ok with
      | true => exact Or.inl ⟨{ hgo with sigset := congrArg (Finset.erase · s) h.sigset }, rfl⟩
      | false => exact Or.inr ⟨hquit, rfl, rfl, by simp⟩
  | signal s =>
      rw [Process.perform]
      split_ifs
      · refine Or.inl ⟨{ hgo with caught := congrArg (insert s) h.caught, due := ?_ }, rfl⟩
        exact fun t ht => Or.inl (h.handled_of_ready hready t ht)
      · exact Or.inr ⟨hquit, rfl, rfl, by simp⟩
  | kill s =>
      cases ok with
      | true =>
          have hrun : ({ p with todo := k } : Process E).status ≠ .exited := by
            rw [hready.1]
            decide
          refine Or.inl ⟨hgo.kill hrun, ?_⟩
          show (Process.raise { p with todo := k } s).todo = k
          rw [raise_eq]
      | false => exact Or.inr ⟨hquit, rfl, rfl, by simp⟩
  | sigpending =>
      cases ok with
      | true => exact Or.inl ⟨hgo.sigpending, rfl⟩
      | false => exact Or.inr ⟨hquit, rfl, rfl, by simp⟩
  | fork | wait =>
      cases ok with
      | true => exact Or.inl ⟨hgo, rfl⟩
      | false => exact Or.inr ⟨hquit, rfl, rfl, by simp⟩

/-- The line that an instruction prints is one of those that it is known to print. -/
theorem Agrees.lines {i : Instr E} (k : List (Instr E)) (ok : Bool) (h : Agrees K came handled p) :
    (p.perform i k ok).2.toList ∈ K.lines i := by
  cases i with
  | print e => exact List.mem_singleton_self _
  | ifMember s e e' =>
      simp only [Process.perform, Known.lines, h.sigset]
      split_ifs <;> exact List.mem_singleton_self _
  | ifPending s e e' =>
      simp only [Process.perform, Known.lines]
      by_cases hshown : s ∈ K.shown
      · rw [if_pos hshown, if_pos (h.shown hshown)]
        exact List.mem_singleton_self _
      · rw [if_neg hshown]
        by_cases hasked : s ∈ K.asked
        · rw [if_pos hasked]
          split_ifs
          · exact List.mem_cons_self
          · exact List.mem_cons_of_mem _ (List.mem_singleton_self _)
        · rw [if_neg hasked, if_neg fun hmem => hasked (h.asked hmem)]
          exact List.mem_singleton_self _
  | sigemptyset | sigaddset _ | sigdelset _ | sigprocmask | signal _ | kill _ | sigpending | sleep
  | fork | wait => exact List.mem_singleton_self _

/-! ### Runs -/

/-- The signals that have come to `w` from outside, or because of what the other process does. -/
def Came (w : Who) (as : List (Label E)) (s : Sig) : Prop :=
  s = .chld ∨ s = .hup ∨ s = .cont ∨ ∃ e, (.send w s, e) ∈ as

/-- A handler has run in `w`. -/
def Handled (w : Who) (as : List (Label E)) (s : Sig) : Prop :=
  (.deliver w s, some (.handled s)) ∈ as

instance [DecidableEq E] (w : Who) (as : List (Label E)) (s : Sig) : Decidable (Handled w as s) :=
  inferInstanceAs (Decidable (_ ∈ _))

/-- What `w` prints in a step. -/
def line (w : Who) : Label E → List E
  | (.own v _, some (.did _ _ l)) => if v = w then l.toList else []
  | _ => []

/-- What `w` has printed. -/
def printed (w : Who) (as : List (Label E)) : List E := as.flatMap (line w)

/-- The result of a call of `sigprocmask` by `w`. -/
def mask (w : Who) : Label E → List Bool
  | (.own v _, some (.did .sigprocmask r _)) => if v = w then [r] else []
  | _ => []

/-- The results of the calls of `sigprocmask` by `w`. -/
def masked (w : Who) (as : List (Label E)) : List Bool := as.flatMap (mask w)

theorem line_of_who_ne {w : Who} {a : Label E} (h : a.1.who ≠ w) : line w a = [] := by
  obtain ⟨c, e⟩ := a
  cases c with
  | own v ok =>
      rcases e with _ | ⟨i, ok', l⟩ | _ | _ | _
      · rfl
      · exact if_neg h
      all_goals rfl
  | deliver v s | send v s => rfl

/-- A line has been printed by an instruction. -/
theorem exists_of_mem_printed {w : Who} {as : List (Label E)} {e : E} (h : e ∈ printed w as) :
    ∃ xs ok i r ys, as = xs ++ (.own w ok, some (.did i r (some e))) :: ys := by
  obtain ⟨⟨c, ev⟩, ha, he⟩ := List.mem_flatMap.1 h
  obtain ⟨xs, ys, rfl⟩ := List.append_of_mem ha
  cases c with
  | deliver v s | send v s => cases he
  | own v ok =>
      rcases ev with _ | ⟨i, r, l⟩ | _ | _ | _
      · cases he
      · simp only [line] at he
        split_ifs at he with hv
        · obtain rfl := hv
          cases l with
          | none => cases he
          | some e' =>
              obtain rfl := List.mem_singleton.1 he
              exact ⟨xs, ok, i, r, ys, rfl⟩
        · cases he
      all_goals cases he

theorem printed_snoc (w : Who) (as : List (Label E)) (a : Label E) :
    printed w (as ++ [a]) = printed w as ++ line w a := by
  simp [printed]

theorem mask_of_who_ne {w : Who} {a : Label E} (h : a.1.who ≠ w) : mask w a = [] := by
  obtain ⟨c, e⟩ := a
  cases c with
  | own v ok =>
      rcases e with _ | ⟨i, ok', l⟩ | _ | _ | _
      · rfl
      · cases i with
        | sigprocmask => exact if_neg h
        | _ => rfl
      all_goals rfl
  | deliver v s | send v s => rfl

theorem mask_of_ne {w : Who} {i : Instr E} {ok r : Bool} {l : Option E} (h : i ≠ .sigprocmask) :
    mask w (.own w ok, some (.did i r l)) = [] := by
  cases i with
  | sigprocmask => exact absurd rfl h
  | _ => rfl

theorem masked_snoc (w : Who) (as : List (Label E)) (a : Label E) :
    masked w (as ++ [a]) = masked w as ++ mask w a := by
  simp [masked]

theorem Known.masks_after {i : Instr E} (h : i ≠ .sigprocmask) (K : Known) :
    (K.after i).masks = K.masks := by
  cases i with
  | sigprocmask => exact absurd rfl h
  | kill s =>
      simp only [Known.after, Known.kill]
      split_ifs <;> rfl
  | _ => rfl

theorem Known.masks_setmask {K : Known} {r : Bool} {ms : List Bool} (h : K.masks = r :: ms) :
    K.setmask.masks = ms := by
  cases r <;> simp only [Known.setmask, h]

theorem Came.snoc {w : Who} {as : List (Label E)} {s : Sig} (h : Came w as s) (a : Label E) :
    Came w (as ++ [a]) s := by
  rcases h with h | h | h | ⟨e, h⟩
  · exact Or.inl h
  · exact Or.inr (Or.inl h)
  · exact Or.inr (Or.inr (Or.inl h))
  · exact Or.inr (Or.inr (Or.inr ⟨e, List.mem_append_left _ h⟩))

theorem Agrees.snoc {w : Who} {as : List (Label E)}
    (h : Agrees K (Came w as) (Handled w as) p) (a : Label E) :
    Agrees K (Came w (as ++ [a])) (Handled w (as ++ [a])) p :=
  h.mono (fun _ hs => hs.snoc a) fun _ hs => List.mem_append_left _ hs

theorem Agrees.child (h : Agrees K came handled p) (code : List (Instr E)) (masks : List Bool) :
    Agrees (K.child masks) came' handled' (p.child code) where
  sigset := h.sigset
  blocked := h.blocked
  caught := h.caught
  must := fun s hs => absurd hs (Finset.notMem_empty s)
  due := fun s hs => absurd hs (Finset.notMem_empty s)
  may := fun s hs => absurd hs (Finset.notMem_empty s)
  shown := h.shown
  asked := h.asked
  mayShow := fun _ hs => Or.inl (h.asked hs)

variable {shell : Bool} {outside : Finset Sig} {main code : List (Instr E)} {s s' : State E}
  {w : Who} {as : List (Label E)} {a : Label E}

/-! ### Steps of the child -/

theorem who_of_next (h : next shell code s a.1 = some (s', a.2))
    (hnone : s.proc .child = none) : a.1.who = .parent := by
  obtain ⟨c, e⟩ := a
  cases s with
  | forked p c waited => cases hnone
  | single p =>
      cases c with
      | own v ok | deliver v t | send v t =>
          cases v with
          | parent => rfl
          | child => cases h

/-- Nothing is seen of a child before it is forked. -/
theorem unseen_child (h : (system shell outside main code).Exec as s)
    (hnone : s.proc .child = none) : ∀ a ∈ as, a.1.who = .parent := by
  revert hnone
  refine Lts.Exec.invariant
    (I := fun as s => s.proc .child = none → ∀ a ∈ as, a.1.who = .parent) ?_ ?_ h
  · intro s _ _ a ha
    cases ha
  · rintro as s a s' - ih ⟨hs, -⟩ hnone b hb
    have hbefore : s.proc .child = none := by
      cases hc : s.proc .child with
      | none => rfl
      | some c =>
          obtain ⟨q, hq, -⟩ := changes_of_next hs hc
          rw [hnone] at hq
          cases hq
    rcases List.mem_append.1 hb with hb | hb
    · exact ih hbefore b hb
    · obtain rfl := List.mem_singleton.1 hb
      exact who_of_next hs hbefore

theorem printed_child (h : (system shell outside main code).Exec as s)
    (hnone : s.proc .child = none) : printed .child as = [] := by
  refine List.flatMap_eq_nil_iff.2 fun a ha => line_of_who_ne ?_
  rw [unseen_child h hnone a ha]
  decide

theorem masked_child (h : (system shell outside main code).Exec as s)
    (hnone : s.proc .child = none) : masked .child as = [] := by
  refine List.flatMap_eq_nil_iff.2 fun a ha => mask_of_who_ne ?_
  rw [unseen_child h hnone a ha]
  decide

theorem exists_proc_of_next (h : next shell code s a.1 = some (s', a.2)) :
    ∃ p, s.proc a.1.who = some p := by
  cases hc : s.proc .child with
  | none =>
      rw [who_of_next h hc]
      cases s with
      | single p => exact ⟨p, rfl⟩
      | forked p c waited => exact ⟨p, rfl⟩
  | some c =>
      cases s with
      | single p => cases hc
      | forked p c waited =>
          cases a.1.who with
          | parent => exact ⟨p, rfl⟩
          | child => exact ⟨c, rfl⟩

/-! ### Calls of `sigprocmask` -/

/-- Is this a call of `sigprocmask`? -/
def Instr.isMask : Instr E → Bool
  | .sigprocmask => true
  | _ => false

/-- A call that has been made is no longer to be made. -/
theorem mask_changes (h : Changes w p a q) :
    (mask w a).length + q.todo.countP Instr.isMask ≤ p.todo.countP Instr.isMask := by
  have hle : q.todo.countP Instr.isMask ≤ p.todo.countP Instr.isMask :=
    (todo_suffix_of_changes h).sublist.countP_le
  cases h with
  | same hne =>
      rw [mask_of_who_ne hne]
      exact (Nat.zero_add _).le
  | report hne | orphan hne =>
      rw [mask_of_who_ne hne]
      simpa using hle
  | exit _ _ | deliver _ | send _ => simpa [mask] using hle
  | @did ok i k ok' hready htodo =>
      by_cases hi : i = .sigprocmask
      · obtain rfl := hi
        have hk : (p.perform .sigprocmask k ok).1.todo.countP Instr.isMask
            ≤ k.countP Instr.isMask := by
          rcases todo_perform p .sigprocmask k ok with hk | hnil
          · rw [hk]
          · rw [hnil]
            exact Nat.zero_le _
        have hone : mask w (.own w ok', some (.did .sigprocmask ok
            (p.perform .sigprocmask k ok).2)) = [ok] := if_pos rfl
        rw [hone, htodo, List.countP_cons_of_pos (by rfl), List.length_singleton]
        omega
      · rw [mask_of_ne hi]
        simpa using hle

/-- **A process calls `sigprocmask` as often as its program says**, at most. -/
theorem length_masked_le (h : (system shell outside main code).Exec as s) (w : Who) :
    (masked w as).length ≤ (w.program main code).countP Instr.isMask := by
  have hall : ∀ p, s.proc w = some p →
      (masked w as).length + p.todo.countP Instr.isMask
        ≤ (w.program main code).countP Instr.isMask := by
    refine proc_invariant (I := fun as p => (masked w as).length + p.todo.countP Instr.isMask
      ≤ (w.program main code).countP Instr.isMask) ?_ ?_ ?_ h
    · rintro rfl
      exact (Nat.zero_add _).le
    · rintro as s p ok hr hnone rfl -
      rw [masked_snoc, masked_child hr hnone]
      exact (Nat.zero_add _).le
    · intro as s a p q _ _ hbefore _ hc
      have hone := mask_changes hc
      rw [masked_snoc, List.length_append]
      omega
  cases hp : s.proc w with
  | some p => exact (Nat.le_add_right _ _).trans (hall p hp)
  | none =>
      cases w with
      | parent => cases s <;> cases hp
      | child =>
          rw [masked_child h hp]
          exact Nat.zero_le _

/-! ### Outlines -/

/-- What is to be shown of a program and its child, and that it has been checked. -/
structure Outline (main code : List (Instr E)) where
  /-- What is to hold at each place. -/
  place : Who → Known → Prop
  /-- What is to hold when an instruction is executed. -/
  instr : Who → Instr E → Known → Prop
  texts : Who → List (List E)
  /-- The results of the calls of `sigprocmask`. -/
  masks : Who → List Bool
  checks_main : Checks (place .parent) (instr .parent) main (.start (masks .parent))
  texts_main : ∀ xs ∈ Signals.texts main (.start (masks .parent)), xs ∈ texts .parent
  checks_child : ∀ K, instr .parent .fork K →
    Checks (place .child) (instr .child) code (K.child (masks .child)) ∧
      ∀ xs ∈ Signals.texts code (K.child (masks .child)), xs ∈ texts .child

namespace Outline

variable (O : Outline main code)

/-- A process is at some place of its program, as it is known to be there. -/
def Follows (w : Who) (as : List (Label E)) (p : Process E) : Prop :=
  ∃ rest K, Agrees K (Came w as) (Handled w as) p ∧ (p.todo = rest ∨ p.todo = []) ∧
    Checks (O.place w) (O.instr w) rest K ∧ masked w as ++ K.masks = O.masks w ∧
    ∀ xs ∈ Signals.texts rest K, printed w as ++ xs ∈ O.texts w

variable {O}

/-- A step that prints nothing and does not change what is known. -/
theorem Follows.silent {rest : List (Instr E)} (hline : line w a = []) (hmask : mask w a = [])
    (hagrees : Agrees K (Came w (as ++ [a])) (Handled w (as ++ [a])) q)
    (htodo : q.todo = rest ∨ q.todo = []) (hchecks : Checks (O.place w) (O.instr w) rest K)
    (hmasks : masked w as ++ K.masks = O.masks w)
    (htexts : ∀ xs ∈ Signals.texts rest K, printed w as ++ xs ∈ O.texts w) :
    O.Follows w (as ++ [a]) q := by
  refine ⟨rest, K, hagrees, htodo, hchecks, ?_, ?_⟩
  · rw [masked_snoc, hmask, List.append_nil]
    exact hmasks
  · rw [printed_snoc, hline, List.append_nil]
    exact htexts

/-- **Knowledge stays correct.** -/
theorem Follows.changes (h : O.Follows w as p) (hc : Changes w p a q)
    (hmask : masked w (as ++ [a]) <+: O.masks w) : O.Follows w (as ++ [a]) q := by
  obtain ⟨rest, K, hagrees, htodo, hchecks, hmasks, htexts⟩ := h
  have hsnoc := hagrees.snoc a
  cases hc with
  | same hwho =>
      exact .silent (line_of_who_ne hwho) (mask_of_who_ne hwho) hsnoc htodo hchecks hmasks htexts
  | @did ok i k ok' hready hi =>
      obtain rfl : rest = i :: k := by
        rcases htodo with htodo | htodo
        · exact htodo.symm.trans hi
        · rw [hi] at htodo
          cases htodo
      obtain ⟨-, -, hchecks'⟩ := id hchecks
      have hline : line w (.own w ok', some (.did i ok (p.perform i k ok).2))
          = (p.perform i k ok).2.toList := if_pos rfl
      have hok : i = .sigprocmask → ∃ ms, K.masks = ok :: ms := by
        rintro rfl
        have hthis : mask w (.own w ok', some (.did .sigprocmask ok
            (p.perform .sigprocmask k ok).2)) = [ok] := if_pos rfl
        rw [masked_snoc, hthis, ← hmasks, List.prefix_append_right_inj] at hmask
        obtain ⟨ms, hms⟩ := hmask
        exact ⟨ms, hms.symm⟩
      rcases hsnoc.perform (k := k) hready hok with ⟨hgo, hk⟩ | ⟨hquit, hnil, hnone, hne⟩
      · refine ⟨k, K.after i, hgo, Or.inl hk, hchecks', ?_, ?_⟩
        · rw [masked_snoc, List.append_assoc, ← hmasks]
          congr 1
          by_cases hi' : i = .sigprocmask
          · obtain rfl := hi'
            obtain ⟨ms, hms⟩ := hok rfl
            show mask w _ ++ K.setmask.masks = K.masks
            rw [Known.masks_setmask hms, hms]
            exact congrArg (· ++ ms) (if_pos rfl)
          · rw [mask_of_ne hi', K.masks_after hi', List.nil_append]
        · intro xs hxs
          rw [printed_snoc, hline, List.append_assoc]
          exact htexts _ (List.mem_flatMap.2 ⟨_, hagrees.lines k ok, List.mem_map_of_mem hxs⟩)
      · refine .silent ?_ (mask_of_ne hne) hquit (Or.inr hnil) hchecks hmasks htexts
        rw [hline, hnone]
        rfl
  | exit hready hnil =>
      exact .silent rfl rfl (hsnoc.todo [] .exited) (Or.inr rfl) hchecks hmasks htexts
  | @deliver s orphaned _ e hq =>
      have hrun : e = some (.handled s) → Handled w (as ++ [(.deliver w s, e)]) s := by
        rintro rfl
        exact List.mem_append_right _ (List.mem_singleton_self _)
      obtain ⟨-, -, -, -, htodo'⟩ := deliver_eq hq
      refine .silent rfl rfl (hsnoc.deliver hq hrun) ?_ hchecks hmasks htexts
      rcases htodo' with heq | hnil
      · rw [heq]
        exact htodo
      · exact Or.inr hnil
  | send s =>
      have hcame : Came w (as ++ [((.send w s, none) : Label E)]) s :=
        Or.inr (Or.inr (Or.inr ⟨none, List.mem_append_right _ (List.mem_singleton_self _)⟩))
      exact .silent rfl rfl (hsnoc.raise (Or.inr hcame)) (todo_raise p s ▸ htodo) hchecks hmasks
        htexts
  | report hwho _ =>
      exact .silent (line_of_who_ne hwho) (mask_of_who_ne hwho)
        (hsnoc.raise (Or.inr (Or.inl rfl))) (todo_raise p .chld ▸ htodo) hchecks hmasks htexts
  | orphan hwho _ =>
      rw [Process.orphan]
      split_ifs
      · have hhup := hsnoc.raise (s := .hup) (Or.inr (Or.inr (Or.inl rfl)))
        refine .silent (line_of_who_ne hwho) (mask_of_who_ne hwho)
          (hhup.raise (s := .cont) (Or.inr (Or.inr (Or.inr (Or.inl rfl))))) ?_ hchecks hmasks htexts
        rw [todo_raise, todo_raise]
        exact htodo
      · exact .silent (line_of_who_ne hwho) (mask_of_who_ne hwho) hsnoc htodo hchecks hmasks htexts

/-- **In every run** with the given results of `sigprocmask`, both processes are as they are known
to be. -/
theorem follows (O : Outline main code) (h : (system shell outside main code).Exec as s)
    (hmask : ∀ w, masked w as <+: O.masks w) {w : Who} {p : Process E} (hp : s.proc w = some p) :
    O.Follows w as p := by
  revert hmask
  suffices hall : (∀ w, masked w as <+: O.masks w) → ∀ w p, s.proc w = some p → O.Follows w as p
    from fun hmask => hall hmask w p hp
  refine Lts.Exec.invariant
    (I := fun as s =>
      (∀ w, masked w as <+: O.masks w) → ∀ w p, s.proc w = some p → O.Follows w as p) ?_ ?_ h
  · rintro s rfl - w p hp
    cases w with
    | child => cases hp
    | parent =>
        cases hp
        exact ⟨main, .start (O.masks .parent), agrees_start main _, Or.inl rfl, O.checks_main, rfl,
          O.texts_main⟩
  · rintro as s a s' hr ih ⟨hs, -⟩ hmask w q hq
    have hbefore := ih fun v => by
      have hv := hmask v
      rw [masked_snoc] at hv
      exact (List.prefix_append _ _).trans hv
    cases hp : s.proc w with
    | some p =>
        obtain ⟨q', hq', hc⟩ := changes_of_next hs hp
        obtain rfl : q' = q := Option.some_inj.1 (hq'.symm.trans hq)
        exact (hbefore w p hp).changes hc (hmask w)
    | none =>
        -- a child has been forked
        obtain rfl : w = .child := by
          cases w with
          | child => rfl
          | parent =>
              cases s with
              | single p => cases hp
              | forked p c waited => cases hp
        obtain ⟨p, k, ok, hparent, hready, htodo, rfl, rfl⟩ := born_of_next hs hp hq
        obtain ⟨rest, K, hagrees, hrest, hchecks, -, -⟩ := hbefore .parent p hparent
        obtain rfl : rest = .fork :: k := by
          rcases hrest with hrest | hrest
          · exact hrest.symm.trans htodo
          · rw [htodo] at hrest
            cases hrest
        obtain ⟨hchild, htexts⟩ := O.checks_child K hchecks.2.1
        refine ⟨code, K.child (O.masks .child), hagrees.child code _, Or.inl rfl, hchild, ?_, ?_⟩
        · rw [masked_snoc, masked_child hr hp]
          rfl
        · rw [printed_snoc, printed_child hr hp]
          exact htexts

/-! ### What has been checked -/

theorem exists_mem_texts (rest : List (Instr E)) (K : Known) :
    ∃ xs, xs ∈ Signals.texts rest K := by
  induction rest generalizing K with
  | nil => exact ⟨[], List.mem_singleton_self _⟩
  | cons i k ih =>
      obtain ⟨xs, hxs⟩ := ih (K.after i)
      obtain ⟨l, hl⟩ : ∃ l, l ∈ K.lines i := by
        cases i with
        | ifMember s e e' =>
            rw [Known.lines]
            split_ifs <;> exact ⟨_, List.mem_cons_self⟩
        | ifPending s e e' =>
            rw [Known.lines]
            split_ifs <;> exact ⟨_, List.mem_cons_self⟩
        | print _ | sigemptyset | sigaddset _ | sigdelset _ | sigprocmask | signal _ | kill _
        | sigpending | sleep | fork | wait => exact ⟨_, List.mem_cons_self⟩
      exact ⟨l ++ xs, List.mem_flatMap.2 ⟨l, hl, List.mem_map_of_mem hxs⟩⟩

/-- **What is known of a process.** -/
theorem known (O : Outline main code) (h : (system shell outside main code).Exec as s)
    (hmask : ∀ w, masked w as <+: O.masks w) {w : Who} {p : Process E} (hp : s.proc w = some p) :
    ∃ K, O.place w K ∧ Agrees K (Came w as) (Handled w as) p ∧
      masked w as ++ K.masks = O.masks w := by
  obtain ⟨rest, K, hagrees, -, hchecks, hmasks, -⟩ := O.follows h hmask hp
  refine ⟨K, ?_, hagrees, hmasks⟩
  cases rest with
  | nil => exact hchecks
  | cons i k => exact hchecks.1

/-- **What has been printed is the beginning of one of the texts.** -/
theorem printed_isPrefix (O : Outline main code) (h : (system shell outside main code).Exec as s)
    (hmask : ∀ w, masked w as <+: O.masks w) {w : Who} {p : Process E} (hp : s.proc w = some p) :
    ∃ xs ∈ O.texts w, printed w as <+: xs := by
  obtain ⟨rest, K, -, -, -, -, htexts⟩ := O.follows h hmask hp
  obtain ⟨xs, hxs⟩ := exists_mem_texts rest K
  exact ⟨_, htexts xs hxs, List.prefix_append _ _⟩

/-- **What is known when an instruction is executed.** -/
theorem known_of_did (O : Outline main code) (h : (system shell outside main code).Exec as s)
    (hmask : ∀ w, masked w as <+: O.masks w) {xs ys : List (Label E)} {ok r : Bool} {i : Instr E}
    {l : Option E} (heq : as = xs ++ (.own w ok, some (.did i r l)) :: ys) :
    ∃ K p k t, (system shell outside main code).Exec xs t ∧ t.proc w = some p ∧
      Agrees K (Came w xs) (Handled w xs) p ∧ p.Ready ∧ O.instr w i K ∧
        l = (p.perform i k r).2 ∧ l.toList ∈ K.lines i := by
  have hall := Lts.Exec.forall_splits
    (Q := fun xs a => (∀ v, masked v xs <+: O.masks v) → a = (.own w ok, some (.did i r l)) →
      ∃ K p k t, (system shell outside main code).Exec xs t ∧ t.proc w = some p ∧
        Agrees K (Came w xs) (Handled w xs) p ∧ p.Ready ∧ O.instr w i K ∧
          l = (p.perform i k r).2 ∧ l.toList ∈ K.lines i) ?_ h
  · refine hall xs _ ys heq (fun v => ?_) rfl
    have hv := hmask v
    rw [heq, masked, List.flatMap_append] at hv
    exact (List.prefix_append _ _).trans hv
  · rintro as s a s' hr ⟨hs, -⟩ hmask rfl
    obtain ⟨p, hp⟩ := exists_proc_of_next hs
    obtain ⟨q, -, hc⟩ := changes_of_next hs hp
    obtain ⟨rest, K, hagrees, hrest, hchecks, -, -⟩ := O.follows hr hmask hp
    cases hc with
    | @did _ _ k _ hready htodo =>
        obtain rfl : rest = i :: k := by
          rcases hrest with hrest | hrest
          · exact hrest.symm.trans htodo
          · rw [htodo] at hrest
            cases hrest
        exact ⟨K, p, k, s, hr, hp, hagrees, hready, hchecks.2.1, rfl, hagrees.lines k r⟩
    | same hne | report hne | orphan hne => exact absurd rfl hne

/-- **What is known when a handler runs.** -/
theorem known_of_handled (O : Outline main code) (h : (system shell outside main code).Exec as s)
    (hmask : ∀ w, masked w as <+: O.masks w) {xs ys : List (Label E)} {t : Sig}
    (heq : as = xs ++ (.deliver w t, some (.handled t)) :: ys) :
    ∃ K, O.place w K ∧ masked w xs ++ K.masks = O.masks w ∧ t ∈ K.caught ∧ t ∉ K.blocked ∧
      (t ∈ K.may ∨ Came w xs t) := by
  have hall := Lts.Exec.forall_splits
    (Q := fun xs a => (∀ v, masked v xs <+: O.masks v) → a = (.deliver w t, some (.handled t)) →
      ∃ K, O.place w K ∧ masked w xs ++ K.masks = O.masks w ∧ t ∈ K.caught ∧ t ∉ K.blocked ∧
        (t ∈ K.may ∨ Came w xs t)) ?_ h
  · refine hall xs _ ys heq (fun v => ?_) rfl
    have hv := hmask v
    rw [heq, masked, List.flatMap_append] at hv
    exact (List.prefix_append _ _).trans hv
  · rintro as s a s' hr ⟨hs, -⟩ hmask rfl
    obtain ⟨p, hp⟩ := exists_proc_of_next hs
    obtain ⟨q, -, hc⟩ := changes_of_next hs hp
    obtain ⟨K, hplace, hagrees, hmasks⟩ := O.known hr hmask hp
    cases hc with
    | deliver hq =>
        obtain ⟨hpending, hblocked, hcaught, -, -⟩ := deliver_eq hq
        refine ⟨K, hplace, hmasks, ?_, ?_, hagrees.may t hpending⟩
        · rw [← hagrees.caught]
          exact hcaught.2 rfl
        · rw [← hagrees.blocked]
          exact hblocked
    | same hne | report hne | orphan hne => exact absurd rfl hne

end Outline

end Signals
