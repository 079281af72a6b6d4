/-
**A child that writes through its parent's descriptor** (`assignment_6/child_file_handle.c`).

The parent opens a file with `O_APPEND` and forks; the child writes "coep" through the descriptor it
has inherited, and the parent only sleeps.  The program does not look at what `open` returns: where
it has failed, the parent notices nothing, and the write of the child fails.

The program may be run any number of times at once, and any call may fail or transfer fewer bytes.
The file then has what the children have written, in the order in which they have written it.

Main definitions:

* `ChildFileHandle.main` — the steps of parent and child;
* `ChildFileHandle.system` — any number of them with one file;
* `ChildFileHandle.writes` — what the children have written, in order.

Main results:

* `ChildFileHandle.file_has_writes` — **the file has what has been written**, in every run;
* `ChildFileHandle.file_of_successful` — **when all have exited and no call has failed**, it has one
  text for each.
-/

import AupPrograms.Completion
import AupPrograms.Syscall
import Mathlib.Data.Fintype.Card

set_option relaxedAutoImplicit false
set_option autoImplicit false

namespace ChildFileHandle

open Syscall

/-! ### The program -/

/-- "coep" -/
def coep : List UInt8 := [99, 111, 101, 112]

/-- Where the parent is. -/
inductive ParentPc
  | open
  | fork
  | sleep
  | returned
  /-- `return errno` after `fork` has failed. -/
  | forkFailed
  deriving DecidableEq

/-- Where the child is. -/
inductive ChildPc
  | none
  | write
  /-- `return 0`, or `exit(0)` after a short write. -/
  | exited
  /-- `return errno` after `write` has failed. -/
  | writeFailed
  deriving DecidableEq

/-- The two processes of a run of the program. -/
structure Procs where
  parent : ParentPc
  /-- `fd` is a descriptor, and not -1. -/
  opened : Bool
  child : ChildPc
  deriving DecidableEq

/-- Who makes a step. -/
inductive Who
  | parent
  | child
  deriving DecidableEq

/-- The file, if it exists. -/
abbrev File := Option (List UInt8)

/-- **A step of `main`**, what becomes of the file, and what has been written. -/
def main (file : File) (p : Procs) (r : Outcome) : Who → Option (File × Procs × Option (List UInt8))
  | .parent =>
      match p.parent with
      | .open =>
          -- whatever `open` returns, the program goes on
          if r = .ok then
            some (some (file.getD []), { p with parent := .fork, opened := true }, none)
          else some (file, { p with parent := .fork, opened := false }, none)
      | .fork =>
          if r = .ok then some (file, { p with parent := .sleep, child := .write }, none)
          else some (file, { p with parent := .forkFailed }, none)
      | .sleep => some (file, { p with parent := .returned }, none)
      | .returned | .forkFailed => none
  | .child =>
      match p.child with
      | .write =>
          if r = .fail ∨ p.opened = false then some (file, { p with child := .writeFailed }, none)
          else
            let bs := coep.take (r.limit coep.length)
            some (some (file.getD [] ++ bs), { p with child := .exited }, some bs)
      | .none | .exited | .writeFailed => none

section

variable {ι : Type*} [DecidableEq ι]

structure St (ι : Type*) where
  file : File
  procs : ι → Procs

/-- Which process of which run of the program makes a step, and how its call ends. -/
abbrev Choice (ι : Type*) := ι × Who × Outcome

/-- A step, and which run of the program has written what in it. -/
def next (s : St ι) (c : Choice ι) : Option (St ι × Option (ι × List UInt8)) :=
  (main s.file (s.procs c.1) c.2.2 c.2.1).map fun r =>
    (⟨r.1, Function.update s.procs c.1 r.2.1⟩, r.2.2.map fun bs => (c.1, bs))

structure Init (file : File) (s : St ι) : Prop where
  file : s.file = file
  procs : ∀ i, s.procs i = ⟨.open, false, .none⟩

abbrev Label (ι : Type*) := Choice ι × Option (ι × List UInt8)

/-- **Any number of runs of the program**, with the same file. -/
def system (ι : Type*) [DecidableEq ι] (file : File) : Lts (St ι) (Label ι) :=
  Lts.ofNext (Init file) next

/-- What has been written, by whom, in order. -/
def writes (as : List (Label ι)) : List (ι × List UInt8) := as.filterMap Prod.snd

theorem exists_of_next {s s' : St ι} {i : ι} {who : Who} {r : Outcome}
    {e : Option (ι × List UInt8)} (h : next s (i, who, r) = some (s', e)) :
    ∃ f p w, main s.file (s.procs i) r who = some (f, p, w) ∧
      s' = ⟨f, Function.update s.procs i p⟩ ∧ e = w.map fun bs => (i, bs) := by
  obtain ⟨⟨f, p, w⟩, hmain, heq⟩ := Option.map_eq_some_iff.1 h
  obtain ⟨rfl, rfl⟩ := Prod.mk.inj heq
  exact ⟨f, p, w, hmain, rfl, rfl⟩

end

/-! ### One step -/

/-- The parent has not forked. -/
def ParentPc.alone : ParentPc → Bool
  | .open | .fork | .forkFailed => true
  | .sleep | .returned => false

/-- There is a child after the `fork`. -/
def Forked (p : Procs) : Prop := p.child = .none ↔ p.parent.alone = true

/-- **What a step does**: the child writes a beginning of its text to the end of the file, or the
file stays as it is. -/
theorem main_cases {file file' : File} {p p' : Procs} {r : Outcome} {who : Who}
    {w : Option (List UInt8)} (h : main file p r who = some (file', p', w)) (hp : Forked p) :
    Forked p' ∧
      ((w = none ∧ file'.getD [] = file.getD [] ∧ (p'.child = .exited ↔ p.child = .exited)) ∨
        ∃ bs, w = some bs ∧ bs <+: coep ∧ (r = .ok → bs = coep) ∧ p.child = .write ∧
          p'.child = .exited ∧ file'.getD [] = file.getD [] ++ bs) := by
  obtain ⟨parent, opened, child⟩ := p
  cases who with
  | parent =>
      cases parent with
      | «open» =>
          by_cases hr : r = .ok <;> simp only [main, hr, if_true, if_false] at h <;> cases h <;>
            exact ⟨hp, Or.inl ⟨rfl, rfl, Iff.rfl⟩⟩
      | fork =>
          obtain rfl : child = .none := hp.2 rfl
          by_cases hr : r = .ok <;> simp only [main, hr, if_true, if_false] at h <;> cases h
          · exact ⟨by simp [Forked, ParentPc.alone], Or.inl ⟨rfl, rfl, by simp⟩⟩
          · exact ⟨by simp [Forked, ParentPc.alone], Or.inl ⟨rfl, rfl, Iff.rfl⟩⟩
      | sleep =>
          cases h
          exact ⟨hp, Or.inl ⟨rfl, rfl, Iff.rfl⟩⟩
      | returned | forkFailed => cases h
  | child =>
      cases child with
      | none | exited | writeFailed => cases h
      | write =>
          have halone : parent.alone = false := by
            rw [← Bool.not_eq_true]
            exact fun h => ChildPc.noConfusion (hp.2 h)
          have hforked : ∀ c, c ≠ .none → Forked ⟨parent, opened, c⟩ := fun c hc =>
            iff_of_false hc (by simp [halone])
          by_cases hfail : r = .fail ∨ opened = false
          · simp only [main, hfail, if_true] at h
            cases h
            exact ⟨hforked _ (by decide), Or.inl ⟨rfl, rfl, by simp⟩⟩
          · simp only [main, hfail, if_false] at h
            cases h
            refine ⟨hforked _ (by decide), Or.inr ⟨_, rfl, List.take_prefix _ _, ?_, rfl, rfl, rfl⟩⟩
            rintro rfl
            exact List.take_length

/-! ### The file -/

section

variable {ι : Type*}

/-- **What holds in every run.** -/
structure Inv (file : File) (as : List (Label ι)) (s : St ι) : Prop where
  forked : ∀ i, Forked (s.procs i)
  file : s.file.getD [] = file.getD [] ++ ((writes as).map Prod.snd).flatten
  once : ((writes as).map Prod.fst).Nodup
  exited : ∀ i, i ∈ (writes as).map Prod.fst ↔ (s.procs i).child = .exited
  coep : ∀ w ∈ writes as, w.2 <+: coep

theorem inv_of_init {file : File} {s : St ι} (h : Init file s) : Inv file [] s where
  forked i := by simp [h.procs i, Forked, ParentPc.alone]
  file := by rw [h.file]; exact (List.append_nil _).symm
  once := List.nodup_nil
  exited i := by
    rw [h.procs i]
    exact iff_of_false List.not_mem_nil ChildPc.noConfusion
  coep := List.forall_mem_nil _

variable [DecidableEq ι]

theorem Inv.step {file : File} {as : List (Label ι)} {s s' : St ι} {a : Label ι}
    (h : Inv file as s) (hs : (system ι file).step s a s') : Inv file (as ++ [a]) s' := by
  obtain ⟨⟨i, who, r⟩, e⟩ := a
  obtain ⟨f, p, w, hmain, rfl, rfl⟩ := exists_of_next hs
  obtain ⟨hforked, hcases⟩ := main_cases hmain (h.forked i)
  have hall : ∀ j, Forked (Function.update s.procs i p j) := by
    intro j
    by_cases hj : j = i
    · rw [hj, Function.update_self]
      exact hforked
    · rw [Function.update_of_ne hj]
      exact h.forked j
  rcases hcases with ⟨rfl, hfile, hchild⟩ | ⟨bs, rfl, hbs, -, hbefore, hafter, hfile⟩
  · -- nothing has been written
    have hwrites : writes (as ++ [((i, who, r), none)]) = writes as := by simp [writes]
    refine ⟨hall, ?_, ?_, fun j => ?_, ?_⟩
    · rw [Option.map_none, hwrites, ← h.file]
      exact hfile
    · rw [Option.map_none, hwrites]
      exact h.once
    · rw [Option.map_none, hwrites, h.exited]
      by_cases hj : j = i
      · simp [hj, hchild]
      · simp [hj]
    · rw [Option.map_none, hwrites]
      exact h.coep
  · have hwrites : writes (as ++ [((i, who, r), some (i, bs))]) = writes as ++ [(i, bs)] := by
      simp [writes]
    have hnew : i ∉ (writes as).map Prod.fst := by
      rw [h.exited, hbefore]
      exact ChildPc.noConfusion
    refine ⟨hall, ?_, ?_, fun j => ?_, ?_⟩
    · rw [Option.map_some, hwrites, List.map_append, List.flatten_append, ← List.append_assoc,
        ← h.file]
      exact hfile.trans (by simp)
    · rw [Option.map_some, hwrites, List.map_append]
      exact h.once.append (List.nodup_singleton i) (by simpa using hnew)
    · rw [Option.map_some, hwrites, List.map_append, List.mem_append, h.exited]
      by_cases hj : j = i
      · simp [hj, hafter]
      · simp [hj]
    · rw [Option.map_some, hwrites]
      intro w hw
      rcases List.mem_append.1 hw with hw | hw
      · exact h.coep w hw
      · rw [List.mem_singleton.1 hw]
        exact hbs

theorem inv {file : File} {as : List (Label ι)} {s : St ι} (h : (system ι file).Exec as s) :
    Inv file as s :=
  Lts.Exec.invariant (fun _ => inv_of_init) (fun _ _ _ _ _ hi hs => hi.step hs) h

/-- **The file has what has been written**, in every run: each child has written once at most, and a
beginning of its text, and it has done so exactly if it has not failed to. -/
theorem file_has_writes {file : File} {as : List (Label ι)} {s : St ι}
    (h : (system ι file).Exec as s) :
    s.file.getD [] = file.getD [] ++ ((writes as).map Prod.snd).flatten ∧
      ((writes as).map Prod.fst).Nodup ∧ (∀ w ∈ writes as, w.2 <+: coep) ∧
      ∀ i, i ∈ (writes as).map Prod.fst ↔ (s.procs i).child = .exited :=
  ⟨(inv h).file, (inv h).once, (inv h).coep, (inv h).exited⟩

/-- Two runs of the program: one parent cannot open the file, and the other child writes half of its
text. -/
def partly : List (Choice Bool) :=
  [(false, .parent, .fail), (true, .parent, .ok), (true, .parent, .ok), (true, .child, .short 2),
    (false, .parent, .ok), (false, .child, .ok)]

theorem file_has_writes_partly :
    ∃ as s, (system Bool (some [1])).Exec as s ∧ (s.procs false).child = .writeFailed ∧
      s.file.getD [] = [1] ++ ((writes as).map Prod.snd).flatten := by
  have h : (Lts.perform next ⟨some [1], fun _ => ⟨.open, false, .none⟩⟩ partly).map
      (fun r => (r.1.procs false).child) = some .writeFailed := by decide
  obtain ⟨⟨s, es⟩, hperform, hchild⟩ := Option.map_eq_some_iff.1 h
  have hex : (system Bool (some [1])).Exec (partly.zip es) s :=
    ⟨_, ⟨rfl, fun _ => rfl⟩, (Lts.run_of_perform hperform).1⟩
  exact ⟨_, s, hex, hchild, (file_has_writes hex).1⟩

/-! ### Runs in which no call fails -/

/-- The runs in which no call fails and every write is complete. -/
def successful (ι : Type*) [DecidableEq ι] (file : File) : Lts (St ι) (Label ι) :=
  (system ι file).restrict fun _ a => a.1.2.2 = .ok

/-- What holds of the two processes in these runs. -/
structure Good (p : Procs) : Prop where
  opened : p.parent = .open ∨ p.opened = true
  forked : p.parent ≠ .forkFailed
  written : p.child ≠ .writeFailed

theorem Good.main {file file' : File} {p p' : Procs} {who : Who} {w : Option (List UInt8)}
    (hgood : Good p) (hforked : Forked p)
    (h : ChildFileHandle.main file p .ok who = some (file', p', w)) : Good p' := by
  obtain ⟨parent, opened, child⟩ := p
  cases who with
  | parent =>
      cases parent with
      | «open» =>
          cases h
          exact ⟨Or.inr rfl, by simp, hgood.written⟩
      | fork =>
          cases h
          exact ⟨by simpa using hgood.opened, by simp, by simp⟩
      | sleep =>
          cases h
          exact ⟨by simpa using hgood.opened, by simp, hgood.written⟩
      | returned | forkFailed => cases h
  | child =>
      cases child with
      | none | exited | writeFailed => cases h
      | write =>
          have hopened : opened = true := by
            refine hgood.opened.resolve_left fun hopen => ?_
            obtain rfl : parent = .open := hopen
            cases hforked.2 rfl
          subst hopened
          cases h
          exact ⟨Or.inr rfl, hgood.forked, by simp⟩

/-- Two processes that can make no step have come to their ends. -/
theorem exited_of_stuck (file : File) {p : Procs} (hgood : Good p) (hforked : Forked p)
    (hstuck : ∀ who, ChildFileHandle.main file p .ok who = none) : p.child = .exited := by
  obtain ⟨parent, opened, child⟩ := p
  have hparent : parent = .returned := by
    cases parent with
    | «open» | fork | sleep => cases hstuck .parent
    | returned => rfl
    | forkFailed => exact absurd rfl hgood.forked
  subst hparent
  cases child with
  | none => cases hforked.1 rfl
  | exited => rfl
  | writeFailed => exact absurd rfl hgood.written
  | write =>
      obtain rfl : opened = true := hgood.opened.resolve_left (by simp)
      cases hstuck .child

/-- **What holds in the successful runs**: nothing has failed, and every write is complete. -/
theorem successful_inv {file : File} {as : List (Label ι)} {s : St ι}
    (h : (successful ι file).Exec as s) :
    (∀ i, Good (s.procs i)) ∧ ∀ w ∈ writes as, w.2 = coep := by
  refine Lts.Exec.invariant
    (I := fun as s => (∀ i, Good (s.procs i)) ∧ ∀ w ∈ writes as, w.2 = coep) ?_ ?_ h
  · intro s hs
    refine ⟨fun i => ?_, List.forall_mem_nil _⟩
    rw [hs.procs i]
    exact ⟨Or.inl rfl, by simp, by simp⟩
  · rintro as s ⟨⟨i, who, r⟩, e⟩ s' hr ⟨hgood, hwrites⟩ ⟨hs, hok⟩
    obtain rfl : r = .ok := hok
    have hforked := (inv hr.of_restrict).forked i
    obtain ⟨f, p, w, hmain, rfl, rfl⟩ := exists_of_next hs
    constructor
    · intro j
      by_cases hj : j = i
      · simpa [hj] using (hgood i).main hforked hmain
      · simpa [hj] using hgood j
    · intro v hv
      rw [writes, List.filterMap_append] at hv
      rcases List.mem_append.1 hv with hv | hv
      · exact hwrites v hv
      · obtain ⟨-, ⟨rfl, -, -⟩ | ⟨bs, rfl, -, hcoep, -⟩⟩ := main_cases hmain hforked
        · cases hv
        · rw [List.mem_singleton.1 hv]
          exact hcoep rfl

/-- **When all have exited and no call has failed**, the file has one text for each run of the
program; before that some process can make a step. -/
theorem file_of_successful [Fintype ι] {file : File} {as : List (Label ι)} {s : St ι}
    (h : (successful ι file).Exec as s) :
    (∀ i, (s.procs i).parent ≠ .forkFailed ∧ (s.procs i).child ≠ .writeFailed) ∧
    ((successful ι file).Terminal s → s.file.getD [] =
      file.getD [] ++ (List.replicate (Fintype.card ι) coep).flatten) := by
  obtain ⟨hgood, hwrites⟩ := successful_inv h
  have hi := inv h.of_restrict
  refine ⟨fun i => ⟨(hgood i).forked, (hgood i).written⟩, fun hterminal => ?_⟩
  have hexited : ∀ i, (s.procs i).child = .exited := by
    intro i
    refine exited_of_stuck s.file (hgood i) (hi.forked i) fun who => ?_
    by_contra hne
    have hsome : (next s (i, who, .ok)).isSome := by
      rw [next, Option.isSome_map]
      exact Option.isSome_iff_ne_none.2 hne
    obtain ⟨⟨s', e⟩, hs⟩ := Option.isSome_iff_exists.1 hsome
    exact hterminal ((i, who, .ok), e) s' ⟨hs, rfl⟩
  -- every run of the program has written once
  have hlength : (writes as).length = Fintype.card ι := by
    have hall : ((writes as).map Prod.fst).toFinset = Finset.univ :=
      Finset.eq_univ_of_forall fun i => List.mem_toFinset.2 ((hi.exited i).2 (hexited i))
    rw [← Finset.card_univ, ← hall, List.toFinset_card_of_nodup hi.once, List.length_map]
  have htexts : (writes as).map Prod.snd = List.replicate (Fintype.card ι) coep := by
    rw [List.eq_replicate_iff, List.length_map]
    refine ⟨hlength, fun bs hbs => ?_⟩
    obtain ⟨w, hw, rfl⟩ := List.mem_map.1 hbs
    exact hwrites w hw
  rw [hi.file, htexts]

end

/-- Two runs of the program: the first child writes while the second parent opens the file. -/
def twice : List (Choice Bool) :=
  [(false, .parent, .ok), (false, .parent, .ok), (true, .parent, .ok), (false, .child, .ok),
    (true, .parent, .ok), (true, .child, .ok), (false, .parent, .ok), (true, .parent, .ok)]

theorem file_of_successful_twice :
    ∃ as s, (successful Bool none).Exec as s ∧ s.file.getD [] = coep ++ coep := by
  have h : (Lts.perform next ⟨none, fun _ => ⟨.open, false, .none⟩⟩ twice).map
      (fun r => (r.1.procs false, r.1.procs true))
        = some (⟨.returned, true, .exited⟩, ⟨.returned, true, .exited⟩) := by decide
  obtain ⟨⟨s, es⟩, hperform, hprocs⟩ := Option.map_eq_some_iff.1 h
  obtain ⟨hfalse, htrue⟩ := Prod.mk.inj hprocs
  have hex : (successful Bool none).Exec (twice.zip es) s :=
    Lts.Exec.of_perform ⟨rfl, fun _ => rfl⟩ hperform (by simp [twice])
  refine ⟨_, s, hex, (file_of_successful hex).2 ?_⟩
  rintro ⟨⟨i, who, r⟩, e⟩ s' ⟨hs, -⟩
  obtain ⟨f, p, w, hmain, -, -⟩ := exists_of_next hs
  have hi : s.procs i = ⟨.returned, true, .exited⟩ := by cases i <;> assumption
  rw [hi] at hmain
  cases who <;> cases hmain

end ChildFileHandle
