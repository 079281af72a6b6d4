/-
**Pending signals are not inherited: `assignment_8/child_pending_signals_and_mask.c`.**

The parent blocks SIGUSR1 and SIGUSR2, sets handlers for them and sends itself both.  It prints
which of them are blocked and pending, unblocks SIGUSR1, prints again, and forks.  The child
inherits the blocked SIGUSR2, but not the pending one: when it unblocks the signal, nothing is
delivered.

Signals may come from outside at any time.  Nothing that the parent prints depends on them, since
both signals are pending anyway; in the child SIGUSR2 is found pending if it has been sent to the
child itself.  The calls of `sigprocmask` may fail, which is only reported, and so the lines about
blocked signals may be wrong: they are printed from the set and not from what is blocked.

Main definitions:

* `ChildPendingSignals.main`, `ChildPendingSignals.child` — the program;
* `ChildPendingSignals.outline`, `ChildPendingSignals.maskOutline` — what is checked at each place;
* `ChildPendingSignals.borneOut` — when a line about a blocked signal is true.

Main results:

* `ChildPendingSignals.lines_printed` — **what is printed**;
* `ChildPendingSignals.handlers_run` — **which handlers run**;
* `ChildPendingSignals.blocked_lines_true_iff` — **when the lines about blocked signals are true.**
-/

import AupPrograms.SignalFlow

set_option relaxedAutoImplicit false
set_option autoImplicit false

namespace ChildPendingSignals

open Signals

/-- The lines of the program, without process ids; `s` is one of the two signals. -/
inductive Line
  | pid (w : Who)
  /-- "Before SIGUSR1 and SIGUSR2 getting generated (before call to kill)" -/
  | before
  /-- "SIG... has been blocked in ..." -/
  | blocked (s : Sig) (w : Who)
  /-- "SIG... has not been blocked in ..." -/
  | notBlocked (s : Sig) (w : Who)
  /-- "After SIGUSR1 and SIGUSR2 getting generated (after call to kill)" -/
  | afterKill
  /-- "SIG... is pending in ..." -/
  | pending (s : Sig) (w : Who)
  /-- "SIG... is not pending in ..." -/
  | notPending (s : Sig) (w : Who)
  /-- "After SIGUSR1 is removed from being blocked ... (after call to sigdelset)" -/
  | afterUnblock (w : Who)
  deriving DecidableEq

/-- `main` up to the fork, after which the parent returns. -/
def main : List (Instr Line) :=
  [.print (.pid .parent), .sigemptyset, .sigaddset .usr1, .sigaddset .usr2, .sigprocmask,
    .signal .usr1, .signal .usr2, .print .before,
    .ifMember .usr1 (.blocked .usr1 .parent) none, .ifMember .usr2 (.blocked .usr2 .parent) none,
    .kill .usr1, .kill .usr2, .sigpending, .print .afterKill,
    .ifPending .usr1 (.pending .usr1 .parent) (some (.notPending .usr1 .parent)),
    .ifPending .usr2 (.pending .usr2 .parent) (some (.notPending .usr2 .parent)),
    .sigdelset .usr1, .sigprocmask, .sigpending, .print (.afterUnblock .parent),
    .ifPending .usr1 (.pending .usr1 .parent) (some (.notPending .usr1 .parent)),
    .ifPending .usr2 (.pending .usr2 .parent) (some (.notPending .usr2 .parent)),
    .fork]

/-- What the child does. -/
def child : List (Instr Line) :=
  [.print (.pid .child),
    .ifMember .usr1 (.blocked .usr1 .child) (some (.notBlocked .usr1 .child)),
    .ifMember .usr2 (.blocked .usr2 .child) (some (.notBlocked .usr2 .child)),
    .sigpending,
    .ifPending .usr1 (.pending .usr1 .child) (some (.notPending .usr1 .child)),
    .ifPending .usr2 (.pending .usr2 .child) (some (.notPending .usr2 .child)),
    .sigdelset .usr2, .sigprocmask, .sigpending, .print (.afterUnblock .child),
    .ifPending .usr1 (.pending .usr1 .child) (some (.notPending .usr1 .child)),
    .ifPending .usr2 (.pending .usr2 .child) (some (.notPending .usr2 .child))]

/-- The lines of the parent. -/
def parentLines : List Line :=
  [.pid .parent, .before, .blocked .usr1 .parent, .blocked .usr2 .parent, .afterKill,
    .pending .usr1 .parent, .pending .usr2 .parent, .afterUnblock .parent,
    .notPending .usr1 .parent, .pending .usr2 .parent]

/-- The lines of the child, to which SIGUSR2 has been sent or not. -/
def childLines (sent : Bool) : List Line :=
  [.pid .child, .notBlocked .usr1 .child, .blocked .usr2 .child, .notPending .usr1 .child,
    if sent then .pending .usr2 .child else .notPending .usr2 .child, .afterUnblock .child,
    .notPending .usr1 .child, .notPending .usr2 .child]

/-- What is to be checked. -/
def place : Who → Known → Prop
  | .parent, K => .usr2 ∈ K.caught → .usr2 ∈ K.blocked
  | .child, K => K.may = ∅

/-- A line that says that SIGUSR2 is pending in the child comes from a test of a set in which
SIGUSR2 is only if it has come from elsewhere. -/
def childInstr (i : Instr Line) (K : Known) : Prop :=
  ∀ l ∈ K.lines i, .pending .usr2 .child ∈ l →
    i = .ifPending .usr2 (.pending .usr2 .child) (some (.notPending .usr2 .child)) ∧
      .usr2 ∉ K.mayShow

/-- The handler for SIGUSR1 has run before the line after the second `sigprocmask`. -/
def parentInstr (i : Instr Line) (K : Known) : Prop :=
  (∀ l ∈ K.lines i, .afterUnblock .parent ∈ l → .usr1 ∈ K.due) ∧
    (i = .fork → Checks (place .child) childInstr child (K.child [true]) ∧
      ∀ xs ∈ texts child (K.child [true]), xs ∈ [childLines false, childLines true])

instance : DecidablePred (place .parent) := fun K =>
  inferInstanceAs (Decidable (.usr2 ∈ K.caught → .usr2 ∈ K.blocked))

instance : DecidablePred (place .child) := fun K => inferInstanceAs (Decidable (K.may = ∅))

instance (i : Instr Line) : DecidablePred (childInstr i) := fun _ =>
  inferInstanceAs (Decidable (∀ _ ∈ _, _))

instance (i : Instr Line) : DecidablePred (parentInstr i) := fun _ =>
  inferInstanceAs (Decidable (_ ∧ _))

/-- The program has been checked, for runs in which `sigprocmask` succeeds. -/
def outline : Outline main child where
  place := place
  instr
    | .parent => parentInstr
    | .child => childInstr
  texts
    | .parent => [parentLines]
    | .child => [childLines false, childLines true]
  masks
    | .parent => [true, true]
    | .child => [true]
  checks_main := by decide
  texts_main := by decide
  checks_child _ h := h.2 rfl

/-! ### Every run -/

section

variable {shell : Bool} {outside : Finset Sig} {as : List (Label Line)} {s : State Line}

/-- What has come to the child has been sent from outside. -/
theorem sent_of_came {t : Sig} (ht : t = .usr1 ∨ t = .usr2) (h : Came .child as t) :
    ∃ e, (.send .child t, e) ∈ as := by
  rcases h with rfl | rfl | rfl | h
  · simp at ht
  · simp at ht
  · simp at ht
  · exact h

/-- The calls of `sigprocmask` in the parent and in the child have these results. -/
theorem masks_of {masks : Who → List Bool} (hparent : masked .parent as <+: masks .parent)
    (hchild : masked .child as <+: masks .child) : ∀ w, masked w as <+: masks w := by
  intro w
  cases w with
  | parent => exact hparent
  | child => exact hchild

/-- **What the program prints** if no call of `sigprocmask` fails, whatever signals come and
whenever. -/
theorem lines_printed (h : (system shell outside main child).Exec as s)
    (hparent : masked .parent as <+: [true, true]) (hchild : masked .child as <+: [true]) :
    printed .parent as <+: parentLines ∧
      (∃ sent, printed .child as <+: childLines sent) ∧
      (.pending .usr2 .child ∈ printed .child as → ∃ e, (.send .child .usr2, e) ∈ as) := by
  have hmask : ∀ w, masked w as <+: outline.masks w := masks_of hparent hchild
  refine ⟨?_, ?_, ?_⟩
  · obtain ⟨p, hp⟩ : ∃ p, s.proc .parent = some p := by cases s <;> exact ⟨_, rfl⟩
    obtain ⟨xs, hxs, hbegin⟩ := outline.printed_isPrefix h hmask hp
    obtain rfl := List.mem_singleton.1 hxs
    exact hbegin
  · cases hc : s.proc .child with
    | none =>
        rw [printed_child h hc]
        exact ⟨false, List.nil_prefix⟩
    | some c =>
        obtain ⟨xs, hxs, hbegin⟩ := outline.printed_isPrefix h hmask hc
        rcases List.mem_cons.1 hxs with rfl | hxs
        · exact ⟨false, hbegin⟩
        · obtain rfl := List.mem_singleton.1 hxs
          exact ⟨true, hbegin⟩
  · intro hpending
    obtain ⟨xs, ok, i, r, ys, rfl⟩ := exists_of_mem_printed hpending
    obtain ⟨K, p, k, -, -, -, hagrees, -, hinstr, hline, hmem⟩ := outline.known_of_did h hmask rfl
    obtain ⟨rfl, hmay⟩ := hinstr _ hmem List.mem_cons_self
    have hshown : Sig.usr2 ∈ p.sigset_pending := by
      by_contra hshown
      simp [Process.perform, hshown] at hline
    obtain ⟨e, he⟩ := sent_of_came (Or.inr rfl) ((hagrees.mayShow _ hshown).resolve_left hmay)
    exact ⟨e, List.mem_append_left _ he⟩

/-- **Which handlers run** then: never the one for SIGUSR2 in the parent, where it stays blocked;
the one for SIGUSR1 before the parent goes on after it has unblocked the signal; and in the child
only for a signal that has been sent to the child. -/
theorem handlers_run (h : (system shell outside main child).Exec as s)
    (hparent : masked .parent as <+: [true, true]) (hchild : masked .child as <+: [true]) :
    ¬ Handled .parent as .usr2 ∧
      (.afterUnblock .parent ∈ printed .parent as → Handled .parent as .usr1) ∧
      ∀ t, t = .usr1 ∨ t = .usr2 → Handled .child as t → ∃ e, (.send .child t, e) ∈ as := by
  have hmask : ∀ w, masked w as <+: outline.masks w := masks_of hparent hchild
  refine ⟨?_, ?_, ?_⟩
  · intro hhandled
    obtain ⟨xs, ys, heq⟩ := List.append_of_mem hhandled
    obtain ⟨K, hplace, -, hcaught, hblocked, -⟩ := outline.known_of_handled h hmask heq
    exact hblocked (hplace hcaught)
  · intro hline
    obtain ⟨xs, ok, i, r, ys, rfl⟩ := exists_of_mem_printed hline
    obtain ⟨K, p, k, -, -, -, hagrees, hready, hinstr, -, hmem⟩ := outline.known_of_did h hmask rfl
    have hdue := hinstr.1 _ hmem List.mem_cons_self
    exact List.mem_append_left _ (hagrees.handled_of_ready hready _ hdue)
  · intro t ht hhandled
    obtain ⟨xs, ys, rfl⟩ := List.append_of_mem hhandled
    obtain ⟨K, hplace, -, -, -, hcame⟩ := outline.known_of_handled h hmask rfl
    rcases hcame with hmay | hcame
    · have hnone : K.may = ∅ := hplace
      rw [hnone] at hmay
      exact absurd hmay (Finset.notMem_empty t)
    · obtain ⟨e, he⟩ := sent_of_came ht hcame
      exact ⟨e, List.mem_append_left _ he⟩

end

/-! ### Calls of `sigprocmask` that fail -/

/-- What a line says about the signals that its process blocks. -/
def Line.TrueOf (p : Process Line) : Line → Prop
  | .blocked s _ => s ∈ p.blocked
  | .notBlocked s _ => s ∉ p.blocked
  | _ => True

/-- When the lines of the parent are true: the first call has succeeded; and those of the child: the
second call of the parent has succeeded, or the first one has not changed the signal. -/
def borneOut (r₁ r₂ : Bool) : Line → Bool
  | .blocked _ .parent | .notBlocked _ .parent => r₁
  | .blocked _ .child => r₁ || r₂
  | .notBlocked _ .child => !r₁ || r₂
  | _ => true

def Line.knownTrue (K : Known) : Line → Bool
  | .blocked s _ => s ∈ K.blocked
  | .notBlocked s _ => s ∉ K.blocked
  | _ => true

def bearsOut (r₁ r₂ : Bool) (i : Instr Line) (K : Known) : Prop :=
  ∀ l ∈ (K.lines i).flatten, l.knownTrue K = borneOut r₁ r₂ l

instance (r₁ r₂ : Bool) (i : Instr Line) : DecidablePred (bearsOut r₁ r₂ i) := fun _ =>
  inferInstanceAs (Decidable (∀ _ ∈ _, _))

/-- What is known at the fork. -/
def atFork (r₁ r₂ : Bool) : Known := main.foldl Known.after (.start [r₁, r₂])

/-- The program has been checked, for runs with these results of `sigprocmask`. -/
def maskOutline (r₁ r₂ r₃ : Bool) : Outline main child where
  place _ _ := True
  instr
    | .parent => fun i K => bearsOut r₁ r₂ i K ∧ (i = .fork → K = atFork r₁ r₂)
    | .child => bearsOut r₁ r₂
  texts
    | .parent => texts main (.start [r₁, r₂])
    | .child => texts child ((atFork r₁ r₂).child [r₃])
  masks
    | .parent => [r₁, r₂]
    | .child => [r₃]
  checks_main := by
    have hall : Checks (fun _ => True)
        (fun i K => bearsOut r₁ r₂ i K ∧ (i = .fork → K = atFork r₁ r₂)) main
        (.start [r₁, r₂]) := by
      cases r₁ <;> cases r₂ <;> decide
    exact hall
  texts_main _ hxs := hxs
  checks_child := by
    rintro K ⟨-, hK⟩
    obtain rfl := hK rfl
    have hall : Checks (fun _ => True) (bearsOut r₁ r₂) child
        ((atFork r₁ r₂).child [r₃]) := by
      cases r₁ <;> cases r₂ <;> cases r₃ <;> decide
    exact ⟨hall, fun _ hxs => hxs⟩

theorem trueOf_iff {K : Known} {came handled : Sig → Prop} {p : Process Line}
    (h : Agrees K came handled p) (l : Line) : l.TrueOf p ↔ l.knownTrue K = true := by
  cases l <;> simp [Line.TrueOf, Line.knownTrue, h.blocked]

/-- **When the lines about blocked signals are true**, for all results of the calls of
`sigprocmask`, whose failure does not end the program. -/
theorem blocked_lines_true_iff (r₁ r₂ r₃ : Bool) {shell : Bool} {outside : Finset Sig}
    {as xs ys : List (Label Line)} {s : State Line}
    (h : (system shell outside main child).Exec as s)
    (hparent : masked .parent as <+: [r₁, r₂]) (hchild : masked .child as <+: [r₃])
    {w : Who} {ok r : Bool} {i : Instr Line} {l : Line}
    (heq : as = xs ++ (.own w ok, some (.did i r (some l))) :: ys) :
    ∃ t p, (system shell outside main child).Exec xs t ∧ t.proc w = some p ∧
      (l.TrueOf p ↔ borneOut r₁ r₂ l = true) := by
  have hmask : ∀ w, masked w as <+: (maskOutline r₁ r₂ r₃).masks w := masks_of hparent hchild
  obtain ⟨K, p, k, t, ht, hp, hagrees, -, hinstr, -, hmem⟩ :=
    (maskOutline r₁ r₂ r₃).known_of_did h hmask heq
  have hbears : bearsOut r₁ r₂ i K := by
    cases w with
    | parent => exact hinstr.1
    | child => exact hinstr
  refine ⟨t, p, ht, hp, ?_⟩
  rw [trueOf_iff hagrees, hbears l (List.mem_flatten.2 ⟨_, hmem, List.mem_cons_self⟩)]

/-- The parent up to its first line about blocked signals; the call of `sigprocmask` fails. -/
def failing : List Choice :=
  List.replicate 4 (.own .parent true) ++ [.own .parent false]
    ++ List.replicate 4 (.own .parent true)

/-- What is seen of it. -/
def failed : List (Option (Event Line)) :=
  [some (.did (.print (.pid .parent)) true (some (.pid .parent))),
    some (.did .sigemptyset true none), some (.did (.sigaddset .usr1) true none),
    some (.did (.sigaddset .usr2) true none), some (.did .sigprocmask false none),
    some (.did (.signal .usr1) true none), some (.did (.signal .usr2) true none),
    some (.did (.print .before) true (some .before)),
    some (.did (.ifMember .usr1 (.blocked .usr1 .parent) none) true
      (some (.blocked .usr1 .parent)))]

/-- The first call fails, and the parent says that it has blocked SIGUSR1. -/
theorem blocked_lines_true_iff_failing : ∃ xs ok r i t p,
    (∃ s, (system true ∅ main child).Exec
      (xs ++ [(.own .parent ok, some (.did i r (some (.blocked .usr1 .parent))))]) s) ∧
      (system true ∅ main child).Exec xs t ∧ t.proc .parent = some p ∧ .usr1 ∉ p.blocked := by
  have h : (Lts.perform (next true child) (.single (start main)) failing).map
      (fun r => failing.zip r.2) = some (failing.zip failed) := by decide
  obtain ⟨⟨s, es⟩, hperform, hr⟩ := Option.map_eq_some_iff.1 h
  have hexec : (system true ∅ main child).Exec (failing.zip failed) s := by
    rw [← hr]
    refine exec_of_perform hperform fun w t ht => ?_
    simp [failing] at ht
  have hlast : failing.zip failed = (failing.zip failed).take 8
      ++ (.own .parent true, some (.did (.ifMember .usr1 (.blocked .usr1 .parent) none) true
        (some (.blocked .usr1 .parent)))) :: [] := rfl
  obtain ⟨t, p, ht, hp, hiff⟩ :=
    blocked_lines_true_iff false true true hexec (by decide) (by decide) hlast
  refine ⟨_, _, _, _, t, p, ⟨s, hexec⟩, ht, hp, ?_⟩
  exact fun hmem => absurd (hiff.1 hmem) (by decide)

/-! ### Runs -/

/-- The parent runs to its end; SIGUSR2 is sent to the child before that asks for the pending
signals. -/
def choices : List Choice :=
  List.replicate 18 (.own .parent true) ++ [.deliver .parent .usr1]
    ++ List.replicate 6 (.own .parent true) ++ [.send .child .usr2]
    ++ List.replicate 8 (.own .child true) ++ [.deliver .child .usr2]
    ++ List.replicate 5 (.own .child true)

theorem exec_choices : ∃ as s, (system true {.usr2} main child).Exec as s ∧
    masked .parent as = [true, true] ∧ masked .child as = [true] ∧
      printed .parent as = parentLines ∧ printed .child as = childLines true ∧
        Handled .child as .usr2 := by
  have h : (Lts.perform (next true child) (.single (start main)) choices).map
      (fun r => (masked .parent (choices.zip r.2), masked .child (choices.zip r.2),
        printed .parent (choices.zip r.2), printed .child (choices.zip r.2),
        decide (Handled .child (choices.zip r.2) .usr2)))
      = some ([true, true], [true], parentLines, childLines true, true) := by decide
  obtain ⟨⟨s, es⟩, hperform, hr⟩ := Option.map_eq_some_iff.1 h
  simp only [Prod.mk.injEq, decide_eq_true_eq] at hr
  obtain ⟨hparent, hchild, hlines, hlines', hhandled⟩ := hr
  refine ⟨choices.zip es, s, exec_of_perform hperform ?_, hparent, hchild, hlines, hlines',
    hhandled⟩
  intro w t ht
  have hsend : w = .child ∧ t = .usr2 := by simpa [choices] using ht
  rw [hsend.2]
  exact Finset.mem_singleton_self _

theorem lines_printed_choices : ∃ as s, (system true {.usr2} main child).Exec as s ∧
    printed .parent as <+: parentLines ∧ (∃ sent, printed .child as <+: childLines sent) ∧
      ∃ e, (.send .child .usr2, e) ∈ as := by
  obtain ⟨as, s, h, hparent, hchild, -, hlines, -⟩ := exec_choices
  obtain ⟨hbegin, hbegin', hsent⟩ := lines_printed h (by rw [hparent]) (by rw [hchild])
  refine ⟨as, s, h, hbegin, hbegin', hsent ?_⟩
  rw [hlines]
  decide

theorem handlers_run_choices : ∃ as s, (system true {.usr2} main child).Exec as s ∧
    ¬ Handled .parent as .usr2 ∧ Handled .parent as .usr1 ∧ Handled .child as .usr2 ∧
      ∃ e, (.send .child .usr2, e) ∈ as := by
  obtain ⟨as, s, h, hparent, hchild, hlines, -, hhandled⟩ := exec_choices
  obtain ⟨hnot, hline, hsent⟩ := handlers_run h (by rw [hparent]) (by rw [hchild])
  refine ⟨as, s, h, hnot, hline ?_, hhandled, hsent .usr2 (Or.inr rfl) hhandled⟩
  rw [hlines]
  decide

end ChildPendingSignals
