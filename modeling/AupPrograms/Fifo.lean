/-
**A FIFO between one writer and one reader.**

A FIFO holds the bytes that have been written and not yet read.  An open for one direction waits for
the other: the call is made first, which makes that end active, and it returns once the other end
has been opened as well.  A read takes some of the first bytes; a read of an empty FIFO waits while
the writer has it open, and is the end of the file afterwards.

The bytes may be of any type.

Main definitions:

* `Fifo` — the bytes under way and the two ends;
* `Fifo.Op`, `Fifo.perform` — what can happen to a FIFO, and when;
* `Fifo.system` — a FIFO as a transition system of its own;
* `Fifo.written`, `Fifo.received` — the bytes that went in and came out during a run.

Main results:

* `Fifo.delivered` — **nothing is lost, doubled or reordered**: what was written is what was
  received followed by what is under way;
* `Fifo.ended` — **the end of the file is the end**: nothing is under way and nothing will be
  written any more.
-/

import AupPrograms.Lts

set_option relaxedAutoImplicit false
set_option autoImplicit false

/-- One end of a FIFO: not opened, opened (or waiting in the call that opens it), or closed. -/
inductive Fifo.End
  | idle
  | active
  | closed
  deriving DecidableEq

/-- The bytes under way and the two ends. -/
structure Fifo (β : Type*) where
  data : List β
  reader : Fifo.End
  writer : Fifo.End
  deriving DecidableEq

namespace Fifo

variable {β : Type*}

/-- A FIFO that nobody uses. -/
def unused : Fifo β := ⟨[], .idle, .idle⟩

/-- What happens at the two ends.  An operation carries the bytes it transfers. -/
inductive Op (β : Type*)
  | openRead
  | openWrite
  | write (bs : List β)
  | read (bs : List β)
  | eof
  | closeRead
  | closeWrite

/-- An end whose descriptor goes away: when the other end was never there, the call that was to open
it has been interrupted, and the end is as before. -/
def End.leave (other : End) : End := if other = .idle then .idle else .closed

/-- The bytes an operation puts in. -/
def Op.input : Op β → List β
  | .write bs => bs
  | _ => []

/-- The bytes an operation takes out. -/
def Op.output : Op β → List β
  | .read bs => bs
  | _ => []

/-- The bytes that went in during a run. -/
def written (ops : List (Op β)) : List β := ops.flatMap Op.input

/-- The bytes that came out during a run. -/
def received (ops : List (Op β)) : List β := ops.flatMap Op.output

theorem written_snoc (ops : List (Op β)) (op : Op β) :
    written (ops ++ [op]) = written ops ++ op.input := by simp [written]

theorem received_snoc (ops : List (Op β)) (op : Op β) :
    received (ops ++ [op]) = received ops ++ op.output := by simp [received]

/-- What one operation takes out came out during the run. -/
theorem length_output_le {ops : List (Op β)} {op : Op β} (h : op ∈ ops) :
    op.output.length ≤ (received ops).length :=
  (List.infix_of_mem_flatten (List.mem_map_of_mem h)).length_le

variable [DecidableEq β]

/-- What an operation does, where it is possible. -/
def perform (f : Fifo β) : Op β → Option (Fifo β)
  | .openRead => if f.reader = .idle then some { f with reader := .active } else none
  | .openWrite => if f.writer = .idle then some { f with writer := .active } else none
  | .write bs =>
      if f.writer = .active ∧ f.reader = .active then some { f with data := f.data ++ bs } else none
  | .read bs =>
      if f.reader = .active ∧ bs ≠ [] ∧ bs <+: f.data then
        some { f with data := f.data.drop bs.length }
      else none
  | .eof => if f.reader = .active ∧ f.writer = .closed ∧ f.data = [] then some f else none
  | .closeRead => if f.reader = .active then some { f with reader := f.writer.leave } else none
  | .closeWrite => if f.writer = .active then some { f with writer := f.reader.leave } else none

/-- A process that ends closes the end it has open. -/
def hangUpRead (f : Fifo β) : Fifo β := (f.perform .closeRead).getD f

/-- A process that ends closes the end it has open. -/
def hangUpWrite (f : Fifo β) : Fifo β := (f.perform .closeWrite).getD f

theorem perform_openRead {f : Fifo β} (h : f.reader = .idle) :
    f.perform .openRead = some { f with reader := .active } := if_pos h

theorem perform_openWrite {f : Fifo β} (h : f.writer = .idle) :
    f.perform .openWrite = some { f with writer := .active } := if_pos h

theorem perform_write {f : Fifo β} (hw : f.writer = .active) (hr : f.reader = .active)
    (bs : List β) : f.perform (.write bs) = some { f with data := f.data ++ bs } :=
  if_pos ⟨hw, hr⟩

theorem perform_read {f : Fifo β} (hr : f.reader = .active) {bs : List β} (hne : bs ≠ [])
    (hbs : bs <+: f.data) :
    f.perform (.read bs) = some { f with data := f.data.drop bs.length } :=
  if_pos ⟨hr, hne, hbs⟩

theorem perform_eof_of_ne {f : Fifo β} (h : f.data ≠ []) : f.perform .eof = none :=
  if_neg fun hend => h hend.2.2

theorem End.leave_eq {e : End} (h : e ≠ .idle) : e.leave = .closed := if_neg h

theorem hangUpRead_eq {f : Fifo β} (h : f.reader = .active) :
    f.hangUpRead = { f with reader := f.writer.leave } := by
  simp [hangUpRead, perform, h]

theorem hangUpRead_of_ne {f : Fifo β} (h : f.reader ≠ .active) : f.hangUpRead = f := by
  simp [hangUpRead, perform, h]

theorem hangUpWrite_eq {f : Fifo β} (h : f.writer = .active) :
    f.hangUpWrite = { f with writer := f.reader.leave } := by
  simp [hangUpWrite, perform, h]

theorem hangUpWrite_of_ne {f : Fifo β} (h : f.writer ≠ .active) : f.hangUpWrite = f := by
  simp [hangUpWrite, perform, h]

/-- A FIFO as a transition system. -/
def system : Lts (Fifo β) (Op β) where
  init f := f = unused
  step f op f' := f.perform op = some f'

/-! ### What goes in comes out -/

/-- An operation adds its input at the end and takes its output from the front. -/
theorem data_of_perform {f f' : Fifo β} {op : Op β} (h : f.perform op = some f') :
    f.data ++ op.input = op.output ++ f'.data := by
  cases op with
  | read bs =>
      obtain ⟨⟨-, -, tail, htail⟩, ⟨⟩⟩ := Option.ite_none_right_eq_some.1 h
      simp [Op.input, Op.output, ← htail]
  | write bs =>
      obtain ⟨-, ⟨⟩⟩ := Option.ite_none_right_eq_some.1 h
      rfl
  | openRead | openWrite | eof | closeRead | closeWrite =>
      obtain ⟨-, ⟨⟩⟩ := Option.ite_none_right_eq_some.1 h
      simp [Op.input, Op.output]

/-- An operation that transfers nothing. -/
theorem data_of_silent {f f' : Fifo β} {op : Op β} (h : f.perform op = some f')
    (hin : op.input = []) (hout : op.output = []) : f'.data = f.data := by
  have hdata := data_of_perform h
  rw [hin, hout, List.append_nil, List.nil_append] at hdata
  exact hdata.symm

@[simp] theorem hangUpRead_data (f : Fifo β) : f.hangUpRead.data = f.data := by
  unfold hangUpRead
  cases h : f.perform .closeRead with
  | none => rfl
  | some f' => exact data_of_silent h rfl rfl

@[simp] theorem hangUpWrite_data (f : Fifo β) : f.hangUpWrite.data = f.data := by
  unfold hangUpWrite
  cases h : f.perform .closeWrite with
  | none => rfl
  | some f' => exact data_of_silent h rfl rfl

/-- **Nothing is lost, doubled or reordered.** -/
theorem delivered {ops : List (Op β)} {f : Fifo β} (h : system.Exec ops f) :
    written ops = received ops ++ f.data := by
  refine Lts.Exec.invariant (I := fun ops f => written ops = received ops ++ f.data) ?_ ?_ h
  · rintro f rfl
    rfl
  · intro ops f op f' _ ih hstep
    rw [written_snoc, received_snoc, ih, List.append_assoc, List.append_assoc,
      data_of_perform hstep]

/-- After the end of the file nothing moves any more. -/
theorem closed_of_perform {f f' : Fifo β} {op : Op β} (h : f.perform op = some f')
    (hend : f.writer = .closed ∧ f.data = []) : f'.writer = .closed ∧ f'.data = [] := by
  obtain ⟨hw, hd⟩ := hend
  cases op with
  | read bs =>
      obtain ⟨⟨-, hne, hprefix⟩, -⟩ := Option.ite_none_right_eq_some.1 h
      exact absurd (List.prefix_nil.1 (hd ▸ hprefix)) hne
  | write bs =>
      obtain ⟨⟨hactive, -⟩, -⟩ := Option.ite_none_right_eq_some.1 h
      simp [hw] at hactive
  | openWrite | closeWrite =>
      obtain ⟨hopen, -⟩ := Option.ite_none_right_eq_some.1 h
      simp [hw] at hopen
  | openRead | eof | closeRead =>
      obtain ⟨-, ⟨⟩⟩ := Option.ite_none_right_eq_some.1 h
      exact ⟨hw, hd⟩

/-- **The end of the file is the end.** -/
theorem ended {ops : List (Op β)} {f : Fifo β} (h : system.Exec ops f) (heof : Op.eof ∈ ops) :
    f.writer = .closed ∧ f.data = [] := by
  refine Lts.Exec.invariant
    (I := fun ops f => Op.eof ∈ ops → f.writer = .closed ∧ f.data = []) ?_ ?_ h heof
  · intro f _ hmem
    cases hmem
  · intro ops f op f' _ ih hstep hmem
    rcases List.mem_append.1 hmem with hmem | hmem
    · exact closed_of_perform hstep (ih hmem)
    · obtain rfl := List.mem_singleton.1 hmem
      obtain ⟨⟨-, hw, hd⟩, ⟨⟩⟩ := Option.ite_none_right_eq_some.1 hstep
      exact ⟨hw, hd⟩

end Fifo
