/-
**Handing over a process group id through a FIFO** (`assignment_7/change_process_group.c`).

Process 3 makes itself the leader of a new process group, moves process 4 into it and writes the id
of the group into the FIFO "transfer", which it creates when it is missing.  Process 5 polls until
it can open the FIFO, reads the id and moves itself into that group.  Nothing else orders the two:
process 5 can poll before there is a FIFO, open it before or after process 3 does, and read before
the id is written or after process 3 has closed its end.

Every system call may fail, and a read or write may transfer less than it was asked to; the property
of the hand-over is about the runs in which only the polling open fails.
`assignment_8/signal_process_group.c` contains the same two processes up to the same places.

Main definitions:

* `GroupHandover.St`, `GroupHandover.process3`, `GroupHandover.process5` — the two processes;
* `GroupHandover.system`, `GroupHandover.successful` — all runs, and those in which calls succeed;
* `GroupHandover.Inv` — what holds in the successful runs, by the program points of the two;
* `GroupHandover.Move` — what a step can be where it holds.

Main results:

* `GroupHandover.inv` — the invariant;
* `GroupHandover.handed_over` — **process 5 joins the group of process 3 after process 4 has, no
  read is short, and the two processes never wait for each other.**
-/

import AupPrograms.CInt
import AupPrograms.Fifo
import AupPrograms.Syscall
import Mathlib.Logic.Function.Basic

set_option relaxedAutoImplicit false
set_option autoImplicit false

namespace GroupHandover

open Syscall (Outcome)

/-! ### The processes and their calls -/

/-- The processes that are to form a group. -/
inductive Member
  | three
  | four
  | five
  deriving DecidableEq

/-- The process ids, and the group in which all processes start. -/
structure Pids where
  pid : Member → ℤ
  group : ℤ
  pos : ∀ p, 0 < pid p
  lt : ∀ p, pid p < 2 ^ 31
  fresh : ∀ p, group ≠ pid p

/-- Where process 3 is. -/
inductive Pc3
  | setpgidSelf
  | setpgidChild
  | access
  | mkfifo
  | creat
  | opening
  | write
  | close
  | after
  | ended
  deriving DecidableEq

/-- Where process 5 is. -/
inductive Pc5
  | open
  | opening
  | read
  | setpgid
  | after
  | ended
  deriving DecidableEq

/-- The calls that matter, with their arguments or what they transfer. -/
inductive Event
  /-- The caller sets the group of `p`, to its own process id when `pgid` is 0. -/
  | setpgid (caller p : Member) (pgid : ℤ)
  | write (bytes : List UInt8)
  | read (num : ℤ)
  deriving DecidableEq

/-- The FIFO, the process groups and the two processes. -/
structure St where
  /-- "transfer" exists. -/
  present : Bool
  fifo : Fifo UInt8
  pgid : Member → ℤ
  pc3 : Pc3
  pc5 : Pc5
  /-- The local variable of process 5, in memory. -/
  pgid_3 : List UInt8

namespace St

/-- The group of a process is set. -/
@[simp] def join (s : St) (p : Member) (g : ℤ) : St := { s with pgid := Function.update s.pgid p g }

/-- "transfer" is made. -/
@[simp] def create (s : St) : St := { s with present := true }

/-- The FIFO is used. -/
@[simp] def pipe (s : St) (f : Fifo UInt8) : St := { s with fifo := f }

/-- The first bytes of the local variable of process 5 are overwritten. -/
@[simp] def store (s : St) (bytes : List UInt8) : St :=
  { s with pgid_3 := bytes ++ s.pgid_3.drop bytes.length }

@[simp] def goto3 (s : St) (pc : Pc3) : St := { s with pc3 := pc }

@[simp] def goto5 (s : St) (pc : Pc5) : St := { s with pc5 := pc }

/-- Process 3 ends, and its end of the FIFO is closed. -/
def exit3 (s : St) : St := (s.pipe s.fifo.hangUpWrite).goto3 .ended

/-- Process 5 ends, and its end of the FIFO is closed. -/
def exit5 (s : St) : St := (s.pipe s.fifo.hangUpRead).goto5 .ended

end St

/-- `setpgid(p, pgid)`: a negative id is refused. -/
def setpgid (P : Pids) (s : St) (p : Member) (pgid : ℤ) (r : Outcome) : Option St :=
  if r = .ok ∧ 0 ≤ pgid then some (s.join p (if pgid = 0 then P.pid p else pgid)) else none

/-! ### The two programs -/

/-- A step of process 3. -/
def process3 (P : Pids) (s : St) (r : Outcome) : Option (St × Option Event) :=
  match s.pc3 with
  | .setpgidSelf =>
      match setpgid P s .three 0 r with
      | some s' => some (s'.goto3 .setpgidChild, some (.setpgid .three .three 0))
      | none => some (s.exit3, some (.setpgid .three .three 0))
  | .setpgidChild =>
      -- a failure is reported and otherwise ignored
      some (((setpgid P s .four (s.pgid .three) r).getD s).goto3 .access,
        some (.setpgid .three .four (s.pgid .three)))
  | .access => some (s.goto3 (if s.present ∧ r = .ok then .creat else .mkfifo), none)
  | .mkfifo =>
      if s.present = false ∧ r = .ok then some (s.create.goto3 .creat, none)
      else some (s.exit3, none)
  | .creat =>
      if r = .ok then
        -- the file is a FIFO, found or made; a regular file would have to be made here otherwise
        if s.present then
          (s.fifo.perform .openWrite).map fun f => ((s.pipe f).goto3 .opening, none)
        else none
      else some (s.exit3, none)
  | .opening =>
      -- the open fails only as long as nobody has opened the other end
      if s.fifo.reader = .idle then if r = .ok then none else some (s.exit3, none)
      else some (s.goto3 .write, none)
  | .write =>
      if r = .fail then some (s.exit3, none)
      else
        let bytes := (CInt.bytes 8 (s.pgid .three)).take (r.limit 8)
        match s.fifo.perform (.write bytes) with
        -- nobody can read: SIGPIPE ends the process
        | none => some (s.exit3, none)
        | some f =>
            some (if bytes.length < 8 then (s.pipe f).exit3 else (s.pipe f).goto3 .close,
              some (.write bytes))
  | .close =>
      some (if r = .ok then (s.pipe s.fifo.hangUpWrite).goto3 .after else s.exit3, none)
  -- `sleep(10); return 0;`
  | .after => some (s.exit3, none)
  | .ended => none

/-- A step of process 5. -/
def process5 (P : Pids) (s : St) (r : Outcome) : Option (St × Option Event) :=
  match s.pc5 with
  | .open =>
      if s.present ∧ r = .ok then
        (s.fifo.perform .openRead).map fun f => ((s.pipe f).goto5 .opening, none)
      else some (s, none)
  | .opening =>
      if s.fifo.writer = .idle then
        if r = .ok then none
        else some ((s.pipe s.fifo.hangUpRead).goto5 .open, none)
      else some (s.goto5 .read, none)
  | .read =>
      -- a failure is reported and otherwise ignored
      if r = .fail then some (s.goto5 .setpgid, some (.read (-1)))
      else
        match s.fifo.perform .eof with
        | some _ => some (s.exit5, some (.read 0))
        | none =>
            let bytes := s.fifo.data.take (r.limit 8)
            (s.fifo.perform (.read bytes)).map fun f =>
              let s' := (s.pipe f).store bytes
              (if bytes.length < 8 then s'.exit5 else s'.goto5 .setpgid, some (.read bytes.length))
  | .setpgid =>
      let pgid := CInt.wrap 4 (CInt.ofBytes s.pgid_3)
      match setpgid P s .five pgid r with
      | some s' => some (s'.goto5 .after, some (.setpgid .five .five pgid))
      | none => some (s.exit5, some (.setpgid .five .five pgid))
  -- `sleep(10); return 0;`
  | .after => some (s.exit5, none)
  | .ended => none

/-- A step of one of the processes; process 4 only sleeps. -/
def next (P : Pids) (s : St) : Member × Outcome → Option (St × Option Event)
  | (.three, r) => process3 P s r
  | (.four, _) => none
  | (.five, r) => process5 P s r

/-- All processes are in the same group, nobody has opened the FIFO, and the local variable of
process 5 has any value. -/
structure Init (P : Pids) (s : St) : Prop where
  fifo : s.fifo = Fifo.unused
  pgid : s.pgid = fun _ => P.group
  pc3 : s.pc3 = .setpgidSelf
  pc5 : s.pc5 = .open
  pgid_3 : s.pgid_3.length = 8

/-- A step: who makes it, how its call ends and what it is. -/
abbrev Label := (Member × Outcome) × Option Event

/-- The processes 3, 4 and 5 of `change_process_group.c`. -/
def system (P : Pids) : Lts St Label := Lts.ofNext (Init P) (next P)

/-- The call of a step succeeds, or it is the polling open. -/
def Succeeds (s : St) (a : Label) : Prop :=
  a.1.2 = .ok ∨ a.1.1 = .five ∧ (s.pc5 = .open ∨ s.pc5 = .opening)

/-- The runs in which all calls but the polling open succeed. -/
def successful (P : Pids) : Lts St Label := (system P).restrict Succeeds

/-- A process is in a call that does not return. -/
def Blocked (P : Pids) (s : St) : Member → Prop
  | .three => s.pc3 ≠ .ended ∧ process3 P s .ok = none
  | .four => False
  | .five => s.pc5 ≠ .ended ∧ process5 P s .ok = none

/-! ### The invariant -/

/-- The order of the program points of process 3. -/
def Pc3.place : Pc3 → ℕ
  | .setpgidSelf => 0
  | .setpgidChild => 1
  | .access => 2
  | .mkfifo => 3
  | .creat => 4
  | .opening => 5
  | .write => 6
  | .close => 7
  | .after => 8
  | .ended => 9

/-- The order of the program points of process 5. -/
def Pc5.place : Pc5 → ℕ
  | .open => 0
  | .opening => 1
  | .read => 2
  | .setpgid => 3
  | .after => 4
  | .ended => 5

@[simp] theorem Pc3.place_ended : Pc3.ended.place = 9 := rfl

@[simp] theorem Pc5.place_ended : Pc5.ended.place = 5 := rfl

theorem Pc3.place_le (pc : Pc3) : pc.place ≤ 9 := by
  cases pc <;> decide

theorem Pc5.place_le (pc : Pc5) : pc.place ≤ 5 := by
  cases pc <;> decide

/-- The end of the FIFO that process 3 has, at each of its program points. -/
def Pc3.writer (pc : Pc3) : Fifo.End :=
  if pc.place < 5 then .idle else if pc.place < 8 then .active else .closed

/-- The end of the FIFO that process 5 has. -/
def Pc5.reader (pc : Pc5) : Fifo.End :=
  if pc.place < 1 then .idle else if pc.place < 5 then .active else .closed

/-- The bytes of the group id. -/
def message (P : Pids) : List UInt8 := CInt.bytes 8 (P.pid .three)

/-- **What holds in the successful runs.** -/
structure Inv (P : Pids) (s : St) : Prop where
  leader : 0 < s.pc3.place → s.pgid .three = P.pid .three
  moved : 1 < s.pc3.place → s.pgid .four = P.pid .three
  joined : 3 < s.pc5.place → s.pgid .five = P.pid .three
  missing : s.pc3 = .mkfifo → s.present = false
  found : 3 < s.pc3.place → s.present = true
  writer : s.fifo.writer = s.pc3.writer
  reader : s.fifo.reader = s.pc5.reader
  /-- Process 3 writes to a FIFO that process 5 has opened. -/
  met : 5 < s.pc3.place → 0 < s.pc5.place
  /-- Process 5 reads from a FIFO that process 3 has opened. -/
  met' : 1 < s.pc5.place → 4 < s.pc3.place
  /-- The message is under way, or it has not been written, or it has been read. -/
  data : s.fifo.data = if 6 < s.pc3.place ∧ s.pc5.place < 3 then message P else []
  sent : 2 < s.pc5.place → 6 < s.pc3.place
  got : 2 < s.pc5.place → s.pgid_3 = message P
  size : s.pgid_3.length = 8

/-- The group id that process 5 reads is the process id of process 3. -/
theorem ofBytes_message (P : Pids) : CInt.ofBytes (message P) = P.pid .three := by
  have hpos := P.pos .three
  have hlt := P.lt .three
  rw [message, CInt.ofBytes_bytes, CInt.wrap_eq_self (by omega) (by omega)]

theorem wrap_message (P : Pids) : CInt.wrap 4 (CInt.ofBytes (message P)) = P.pid .three := by
  have hpos := P.pos .three
  have hlt := P.lt .three
  rw [ofBytes_message, CInt.wrap_eq_self (by omega) (by omega)]

@[simp] theorem message_length (P : Pids) : (message P).length = 8 := CInt.bytes_length 8 _

theorem message_ne_nil (P : Pids) : message P ≠ [] :=
  List.ne_nil_of_length_pos (by simp)

theorem inv_of_init {P : Pids} {s : St} (h : Init P s) : Inv P s := by
  have h₃ : s.pc3.place = 0 := by rw [h.pc3]; rfl
  have h₅ : s.pc5.place = 0 := by rw [h.pc5]; rfl
  constructor
  case missing =>
    intro hpc
    rw [h.pc3] at hpc
    cases hpc
  case writer => rw [h.fifo, h.pc3]; rfl
  case reader => rw [h.fifo, h.pc5]; rfl
  case data => rw [h.fifo, h₃]; rfl
  case size => exact h.pgid_3
  all_goals intro hlt; omega

/-! ### What a step can be -/

/-- **The steps of the successful runs**, where the invariant holds. -/
inductive Move (P : Pids) (s : St) : Member → Option Event → St → Prop
  | setpgidSelf : s.pc3 = .setpgidSelf →
      Move P s .three (some (.setpgid .three .three 0))
        ((s.join .three (P.pid .three)).goto3 .setpgidChild)
  | setpgidChild : s.pc3 = .setpgidChild →
      Move P s .three (some (.setpgid .three .four (P.pid .three)))
        ((s.join .four (P.pid .three)).goto3 .access)
  | access : s.pc3 = .access →
      Move P s .three none (s.goto3 (if s.present then .creat else .mkfifo))
  | mkfifo : s.pc3 = .mkfifo →
      Move P s .three none (s.create.goto3 .creat)
  | creat : s.pc3 = .creat →
      Move P s .three none ((s.pipe { s.fifo with writer := .active }).goto3 .opening)
  | opened : s.pc3 = .opening → 0 < s.pc5.place → Move P s .three none (s.goto3 .write)
  | write : s.pc3 = .write →
      Move P s .three (some (.write (message P)))
        ((s.pipe { s.fifo with data := message P }).goto3 .close)
  | close : s.pc3 = .close →
      Move P s .three none ((s.pipe { s.fifo with writer := .closed }).goto3 .after)
  | done : s.pc3 = .after → Move P s .three none (s.goto3 .ended)
  | poll : s.pc5 = .open → Move P s .five none s
  | openRead : s.pc5 = .open → s.present = true →
      Move P s .five none ((s.pipe { s.fifo with reader := .active }).goto5 .opening)
  | interrupted : s.pc5 = .opening → s.pc3.place < 5 →
      Move P s .five none ((s.pipe { s.fifo with reader := .idle }).goto5 .open)
  | openedRead : s.pc5 = .opening → 4 < s.pc3.place → Move P s .five none (s.goto5 .read)
  | read : s.pc5 = .read → 6 < s.pc3.place →
      Move P s .five (some (.read 8))
        (((s.pipe { s.fifo with data := [] }).store (message P)).goto5 .setpgid)
  | setpgid : s.pc5 = .setpgid →
      Move P s .five (some (.setpgid .five .five (P.pid .three)))
        ((s.join .five (P.pid .three)).goto5 .after)
  | doneRead : s.pc5 = .after →
      Move P s .five none ((s.pipe { s.fifo with reader := .closed }).goto5 .ended)

/-- Process 5 does not go back behind its read. -/
theorem Move.place_le {P : Pids} {s s' : St} {p : Member} {e : Option Event}
    (hm : Move P s p e s') (h : 1 < s.pc5.place) : s.pc5.place ≤ s'.pc5.place := by
  cases hm with
  | openRead hpc _ | interrupted hpc _ | openedRead hpc _ =>
      rw [hpc] at h
      exact absurd h (by decide)
  | read hpc _ | setpgid hpc | doneRead hpc =>
      rw [hpc]
      simp [Pc5.place]
  | _ => exact le_refl _

/-- Who has ended makes no more steps. -/
theorem Move.ended {P : Pids} {s s' : St} {p : Member} {e : Option Event} (hm : Move P s p e s') :
    (s.pc3 = .ended → s'.pc3 = .ended) ∧ (s.pc5 = .ended → s'.pc5 = .ended) := by
  cases hm <;> simp_all

theorem setpgid_ok {P : Pids} {s : St} {p : Member} {pgid : ℤ} (h : 0 < pgid) :
    setpgid P s p pgid .ok = some (s.join p pgid) := by
  simp [setpgid, h.le, h.ne']

theorem Inv.writer_ne {P : Pids} {s : St} (hi : Inv P s) :
    s.fifo.writer ≠ .idle ↔ 4 < s.pc3.place := by
  rw [hi.writer, Pc3.writer]
  split
  · simp
    omega
  · split <;> simp <;> omega

theorem Inv.reader_ne {P : Pids} {s : St} (hi : Inv P s) :
    s.fifo.reader ≠ .idle ↔ 0 < s.pc5.place := by
  rw [hi.reader, Pc5.reader]
  split
  · simp
    omega
  · split <;> simp <;> omega

theorem Inv.reader_active {P : Pids} {s : St} (hi : Inv P s) (hlo : 0 < s.pc5.place)
    (hhi : s.pc5.place < 5) : s.fifo.reader = .active := by
  rw [hi.reader, Pc5.reader, if_neg (by omega), if_pos hhi]

/-- What process 3 does when its calls succeed. -/
theorem move_of_process3 {P : Pids} {s s' : St} {e : Option Event} (hi : Inv P s)
    (h : process3 P s .ok = some (s', e)) : Move P s .three e s' := by
  have hw := hi.writer
  unfold process3 at h
  cases hpc : s.pc3 with
  | setpgidSelf =>
      have hself : setpgid P s .three 0 .ok = some (s.join .three (P.pid .three)) := rfl
      rw [hpc] at h
      simp only [hself, Option.some.injEq, Prod.mk.injEq] at h
      obtain ⟨rfl, rfl⟩ := h
      exact .setpgidSelf hpc
  | setpgidChild =>
      have hlead := hi.leader (by rw [hpc]; decide)
      rw [hpc] at h
      simp only [hlead, setpgid_ok (P.pos _), Option.getD_some, Option.some.injEq,
        Prod.mk.injEq] at h
      obtain ⟨rfl, rfl⟩ := h
      exact .setpgidChild hpc
  | access =>
      rw [hpc] at h
      simp only [and_true, Option.some.injEq, Prod.mk.injEq] at h
      obtain ⟨rfl, rfl⟩ := h
      exact .access hpc
  | mkfifo =>
      rw [hpc] at h
      simp only [hi.missing hpc, and_self, if_true, Option.some.injEq, Prod.mk.injEq] at h
      obtain ⟨rfl, rfl⟩ := h
      exact .mkfifo hpc
  | creat =>
      rw [hpc] at h hw
      have hfound := hi.found (by rw [hpc]; decide)
      have hidle : s.fifo.writer = .idle := hw
      simp only [hfound, if_true, Fifo.perform_openWrite hidle, Option.map_some,
        Option.some.injEq, Prod.mk.injEq] at h
      obtain ⟨rfl, rfl⟩ := h
      exact .creat hpc
  | opening =>
      rw [hpc] at h
      simp only [if_true] at h
      split at h
      · cases h
      · obtain ⟨rfl, rfl⟩ := Prod.mk.inj (Option.some.inj h)
        exact .opened hpc (hi.reader_ne.1 ‹_›)
  | write =>
      have hlead := hi.leader (by rw [hpc]; decide)
      have hmet := hi.met (by rw [hpc]; decide)
      have hunread : ¬ 2 < s.pc5.place := fun hlt => by
        have hsent := hi.sent hlt
        rw [hpc] at hsent
        exact absurd hsent (by decide)
      have hreader := hi.reader_active hmet (by omega)
      have hdata : s.fifo.data = [] := by
        rw [hi.data, hpc, if_neg (by simp [Pc3.place])]
      rw [hpc] at h hw
      have hactive : s.fifo.writer = .active := hw
      have htake : (CInt.bytes 8 (P.pid .three)).take 8 = message P :=
        List.take_of_length_le (message_length P).le
      have hwrite := Fifo.perform_write hactive hreader (message P)
      rw [hdata, List.nil_append] at hwrite
      simp only [reduceCtorEq, if_false, Outcome.limit, hlead, htake, hwrite, message_length,
        lt_irrefl, Option.some.injEq, Prod.mk.injEq] at h
      obtain ⟨rfl, rfl⟩ := h
      exact .write hpc
  | close =>
      rw [hpc] at h hw
      have hactive : s.fifo.writer = .active := hw
      have hleave := Fifo.End.leave_eq (hi.reader_ne.2 (hi.met (by rw [hpc]; decide)))
      simp only [if_true, Fifo.hangUpWrite_eq hactive, hleave, Option.some.injEq,
        Prod.mk.injEq] at h
      obtain ⟨rfl, rfl⟩ := h
      exact .close hpc
  | after =>
      rw [hpc] at h hw
      have hclosed : s.fifo.writer ≠ .active := by
        rw [hw]
        decide
      simp only [St.exit3, Fifo.hangUpWrite_of_ne hclosed, Option.some.injEq, Prod.mk.injEq] at h
      obtain ⟨rfl, rfl⟩ := h
      exact .done hpc
  | ended =>
      rw [hpc] at h
      cases h

/-- What process 5 does when its calls but the polling open succeed. -/
theorem move_of_process5 {P : Pids} {s s' : St} {r : Outcome} {e : Option Event} (hi : Inv P s)
    (hok : r = .ok ∨ s.pc5 = .open ∨ s.pc5 = .opening) (h : process5 P s r = some (s', e)) :
    Move P s .five e s' := by
  have hr := hi.reader
  unfold process5 at h
  cases hpc : s.pc5 with
  | «open» =>
      rw [hpc] at h hr
      have hidle : s.fifo.reader = .idle := hr
      simp only [Fifo.perform_openRead hidle, Option.map_some] at h
      split at h
      · obtain ⟨rfl, rfl⟩ := Prod.mk.inj (Option.some.inj h)
        exact .openRead hpc (by simp_all)
      · obtain ⟨rfl, rfl⟩ := Prod.mk.inj (Option.some.inj h)
        exact .poll hpc
  | opening =>
      have hactive := hi.reader_active (by rw [hpc]; decide) (by rw [hpc]; decide)
      rw [hpc] at h
      by_cases hw : s.fifo.writer = .idle
      · have hplace : s.pc3.place < 5 := by
          by_contra hge
          exact hi.writer_ne.2 (by omega) hw
        have hleave : s.fifo.writer.leave = .idle := by rw [hw]; rfl
        simp only [hw, if_true] at h
        split at h
        · cases h
        · rw [Fifo.hangUpRead_eq hactive, hleave] at h
          obtain ⟨rfl, rfl⟩ := Prod.mk.inj (Option.some.inj h)
          exact .interrupted hpc hplace
      · simp only [if_neg hw] at h
        obtain ⟨rfl, rfl⟩ := Prod.mk.inj (Option.some.inj h)
        exact .openedRead hpc (hi.writer_ne.1 hw)
  | read =>
      have hactive := hi.reader_active (by rw [hpc]; decide) (by rw [hpc]; decide)
      have hopen := hi.met' (by rw [hpc]; decide)
      have hok : r = .ok := by simpa [hpc] using hok
      rw [hpc] at h
      by_cases hsent : 6 < s.pc3.place
      · have hdata : s.fifo.data = message P := by
          rw [hi.data, if_pos ⟨hsent, by rw [hpc]; decide⟩]
        have htake : (message P).take 8 = message P :=
          List.take_of_length_le (message_length P).le
        have heof := Fifo.perform_eof_of_ne (f := s.fifo) (hdata ▸ message_ne_nil P)
        have hread := Fifo.perform_read hactive (message_ne_nil P) (hdata ▸ List.prefix_rfl)
        rw [hdata, List.drop_length] at hread
        simp only [hok, reduceCtorEq, if_false, Outcome.limit, heof, hdata, htake, hread,
          Option.map_some, message_length, lt_irrefl, Option.some.injEq, Prod.mk.injEq] at h
        obtain ⟨rfl, rfl⟩ := h
        exact .read hpc hsent
      · -- the FIFO is empty and process 3 has it open: the read waits
        have hdata : s.fifo.data = [] := by
          rw [hi.data, if_neg fun hd => hsent hd.1]
        have hw : s.fifo.writer ≠ .closed := by
          rw [hi.writer, Pc3.writer, if_neg (by omega), if_pos (by omega)]
          decide
        simp [hok, Fifo.perform, hw, hdata] at h
  | setpgid =>
      have hgot := hi.got (by rw [hpc]; decide)
      have hok : r = .ok := by simpa [hpc] using hok
      rw [hpc] at h
      simp only [hok, hgot, wrap_message, setpgid_ok (P.pos _), Option.some.injEq,
        Prod.mk.injEq] at h
      obtain ⟨rfl, rfl⟩ := h
      exact .setpgid hpc
  | after =>
      have hactive := hi.reader_active (by rw [hpc]; decide) (by rw [hpc]; decide)
      have hsent := hi.sent (by rw [hpc]; decide)
      have hleave := Fifo.End.leave_eq (hi.writer_ne.2 (by omega))
      rw [hpc] at h
      simp only [St.exit5, Fifo.hangUpRead_eq hactive, hleave, Option.some.injEq,
        Prod.mk.injEq] at h
      obtain ⟨rfl, rfl⟩ := h
      exact .doneRead hpc
  | ended =>
      rw [hpc] at h
      cases h

/-! ### The invariant is kept -/

section Steps

variable {P : Pids} {s : St}

/-- One more process joins the group of process 3. -/
theorem Inv.join (hi : Inv P s) (p : Member) : Inv P (s.join p (P.pid .three)) := by
  have hkeep : ∀ q, s.pgid q = P.pid .three →
      Function.update s.pgid p (P.pid .three) q = P.pid .three := by
    intro q hq
    rcases eq_or_ne q p with rfl | hne
    · exact Function.update_self ..
    · rw [Function.update_of_ne hne, hq]
  exact
    { hi with
      leader := fun h => hkeep _ (hi.leader h)
      moved := fun h => hkeep _ (hi.moved h)
      joined := fun h => hkeep _ (hi.joined h) }

/-- Process 3 does not pass its write, and process 5 does not pass its read. -/
theorem Inv.data_of_place (hi : Inv P s) {pc3 : Pc3} {pc5 : Pc5}
    (h₃ : 6 < pc3.place ↔ 6 < s.pc3.place) (h₅ : pc5.place < 3 ↔ s.pc5.place < 3) :
    s.fifo.data = if 6 < pc3.place ∧ pc5.place < 3 then message P else [] :=
  hi.data.trans (if_congr (and_congr h₃.symm h₅.symm) rfl rfl)

/-- **A step of process 3 that leaves the FIFO as it is**: what is known where it comes to. -/
theorem Inv.goto3 (hi : Inv P s) {pc : Pc3} (hle : s.pc3.place ≤ pc.place)
    (hleader : s.pgid .three = P.pid .three)
    (hmoved : 1 < pc.place → s.pgid .four = P.pid .three)
    (hmissing : pc = .mkfifo → s.present = false) (hfound : 3 < pc.place → s.present = true)
    (hwriter : s.pc3.writer = pc.writer) (hmet : 5 < pc.place → 0 < s.pc5.place)
    (hwritten : 6 < pc.place ↔ 6 < s.pc3.place) : Inv P (s.goto3 pc) :=
  { hi with
    leader := fun _ => hleader
    moved := hmoved
    missing := hmissing
    found := hfound
    writer := hi.writer.trans hwriter
    met := hmet
    met' := fun h => lt_of_lt_of_le (hi.met' h) hle
    data := hi.data_of_place hwritten Iff.rfl
    sent := fun h => lt_of_lt_of_le (hi.sent h) hle }

/-- **A step of process 3 once "transfer" is there**: what is known where it comes to. -/
theorem Inv.later3 (hi : Inv P s) {b : Bool} {f : Fifo UInt8} {pc : Pc3} (hplace : 2 < s.pc3.place)
    (hle : s.pc3.place ≤ pc.place) (hpast : 3 < pc.place) (hb : b = true)
    (hwriter : f.writer = pc.writer) (hreader : f.reader = s.fifo.reader)
    (hmet : 5 < pc.place → 0 < s.pc5.place)
    (hdata : f.data = if 6 < pc.place ∧ s.pc5.place < 3 then message P else []) :
    Inv P { s with present := b, fifo := f, pc3 := pc } :=
  { hi with
    leader := fun _ => hi.leader (by omega)
    moved := fun _ => hi.moved (by omega)
    missing := by
      rintro rfl
      exact absurd hpast (by decide)
    found := fun _ => hb
    writer := hwriter
    reader := hreader.trans hi.reader
    met := hmet
    met' := fun h => lt_of_lt_of_le (hi.met' h) hle
    data := hdata
    sent := fun h => lt_of_lt_of_le (hi.sent h) hle }

/-- A step of process 5 that leaves the FIFO as it is and is not its read. -/
theorem Inv.goto5 (hi : Inv P s) {pc : Pc5} (hle : s.pc5.place ≤ pc.place)
    (hjoined : 3 < pc.place → s.pgid .five = P.pid .three) (hreader : s.pc5.reader = pc.reader)
    (hmet : 1 < pc.place → 4 < s.pc3.place) (hread : pc.place < 3 ↔ s.pc5.place < 3) :
    Inv P (s.goto5 pc) :=
  have hpast : 2 < pc.place → 2 < s.pc5.place := fun h => not_lt.1 fun hlt =>
    absurd (hread.2 hlt) (by omega)
  { hi with
    joined := hjoined
    reader := hi.reader.trans hreader
    met := fun h => lt_of_lt_of_le (hi.met h) hle
    met' := hmet
    data := hi.data_of_place Iff.rfl hread
    sent := fun h => hi.sent (hpast h)
    got := fun h => hi.got (hpast h) }

/-- The steps of process 3 keep the invariant. -/
theorem Inv.move_three {s' : St} {e : Option Event} (hi : Inv P s) (hm : Move P s .three e s') :
    Inv P s' := by
  cases hm with
  | setpgidSelf hpc =>
      refine (hi.join .three).goto3 ?_ (by simp) ?_ ?_ ?_ ?_ ?_ ?_ <;>
        simp [hpc, Pc3.place, Pc3.writer]
  | setpgidChild hpc =>
      have hleader := (hi.join .four).leader (by simp [hpc, Pc3.place])
      refine (hi.join .four).goto3 ?_ hleader (fun _ => by simp) ?_ ?_ ?_ ?_ ?_ <;>
        simp [hpc, Pc3.place, Pc3.writer]
  | access hpc =>
      have hleader := hi.leader (by rw [hpc]; decide)
      have hmoved := hi.moved (by rw [hpc]; decide)
      cases hp : s.present with
      | true =>
          refine hi.goto3 ?_ hleader (fun _ => hmoved) ?_ (fun _ => hp) ?_ ?_ ?_ <;>
            simp [hpc, Pc3.place, Pc3.writer]
      | false =>
          refine hi.goto3 ?_ hleader (fun _ => hmoved) (fun _ => hp) ?_ ?_ ?_ ?_ <;>
            simp [hpc, Pc3.place, Pc3.writer]
  | mkfifo hpc =>
      have hwriter : s.fifo.writer = Pc3.creat.writer := hi.writer.trans (by rw [hpc]; rfl)
      refine hi.later3 ?_ ?_ ?_ rfl hwriter rfl ?_ (hi.data_of_place ?_ Iff.rfl) <;>
        simp [hpc, Pc3.place]
  | creat hpc =>
      have hfound := hi.found (by rw [hpc]; decide)
      refine hi.later3 ?_ ?_ ?_ hfound rfl rfl ?_ (hi.data_of_place ?_ Iff.rfl) <;>
        simp [hpc, Pc3.place]
  | opened hpc hmet =>
      have hleader := hi.leader (by rw [hpc]; decide)
      have hmoved := hi.moved (by rw [hpc]; decide)
      have hfound := hi.found (by rw [hpc]; decide)
      refine hi.goto3 ?_ hleader (fun _ => hmoved) ?_ (fun _ => hfound) ?_ (fun _ => hmet) ?_ <;>
        simp [hpc, Pc3.place, Pc3.writer]
  | write hpc =>
      have h₃ : s.pc3.place = 6 := by rw [hpc]; rfl
      -- process 5 has not read before there was something to read
      have hunread : s.pc5.place < 3 := by
        by_contra hge
        exact absurd (hi.sent (by omega)) (by omega)
      have hfound := hi.found (by omega)
      have hmet := hi.met (by omega)
      have hwriter : s.fifo.writer = Pc3.close.writer := hi.writer.trans (by rw [hpc]; rfl)
      refine hi.later3 ?_ ?_ ?_ hfound hwriter rfl (fun _ => hmet) ?_ <;>
        simp [hpc, Pc3.place, hunread]
  | close hpc =>
      have hfound := hi.found (by rw [hpc]; decide)
      have hmet := hi.met (by rw [hpc]; decide)
      refine hi.later3 ?_ ?_ ?_ hfound rfl rfl (fun _ => hmet) (hi.data_of_place ?_ Iff.rfl) <;>
        simp [hpc, Pc3.place]
  | done hpc =>
      have hleader := hi.leader (by rw [hpc]; decide)
      have hmoved := hi.moved (by rw [hpc]; decide)
      have hfound := hi.found (by rw [hpc]; decide)
      have hmet := hi.met (by rw [hpc]; decide)
      refine hi.goto3 ?_ hleader (fun _ => hmoved) ?_ (fun _ => hfound) ?_ (fun _ => hmet) ?_ <;>
        simp [hpc, Pc3.place, Pc3.writer]

/-- The steps of process 5 keep the invariant. -/
theorem Inv.move_five {s' : St} {e : Option Event} (hi : Inv P s) (hm : Move P s .five e s') :
    Inv P s' := by
  cases hm with
  | poll => exact hi
  | openRead hpc _ =>
      have h₅ : s.pc5.place = 0 := by rw [hpc]; rfl
      exact
        { hi with
          joined := fun h => absurd h (by simp [Pc5.place])
          reader := rfl
          met := fun _ => by simp [Pc5.place]
          met' := fun h => absurd h (by simp [Pc5.place])
          data := hi.data_of_place Iff.rfl (by simp [hpc, Pc5.place])
          sent := fun h => absurd h (by simp [Pc5.place])
          got := fun h => absurd h (by simp [Pc5.place]) }
  | interrupted hpc hplace =>
      exact
        { hi with
          joined := fun h => absurd h (by simp [Pc5.place])
          reader := rfl
          met := fun h => absurd (lt_trans hplace h) (lt_irrefl _)
          met' := fun h => absurd h (by simp [Pc5.place])
          data := hi.data_of_place Iff.rfl (by simp [hpc, Pc5.place])
          sent := fun h => absurd h (by simp [Pc5.place])
          got := fun h => absurd h (by simp [Pc5.place]) }
  | openedRead hpc hplace =>
      refine hi.goto5 ?_ ?_ ?_ (fun _ => hplace) ?_ <;> simp [hpc, Pc5.place, Pc5.reader]
  | read hpc hsent =>
      have h₅ : s.pc5.place = 2 := by rw [hpc]; rfl
      have hgot : message P ++ s.pgid_3.drop (message P).length = message P := by
        rw [message_length, List.drop_of_length_le hi.size.le, List.append_nil]
      exact
        { hi with
          joined := fun h => absurd h (by simp [Pc5.place])
          reader := hi.reader.trans (by rw [hpc]; rfl)
          met := fun _ => by simp [Pc5.place]
          met' := fun _ => hi.met' (by omega)
          data := (if_neg fun h => absurd h.2 (by simp [Pc5.place])).symm
          sent := fun _ => hsent
          got := fun _ => hgot
          size := (congrArg List.length hgot).trans (message_length P) }
  | setpgid hpc =>
      have hmet := hi.met' (by rw [hpc]; decide)
      refine (hi.join .five).goto5 ?_ (fun _ => by simp) ?_ (fun _ => hmet) ?_ <;>
        simp [hpc, Pc5.place, Pc5.reader]
  | doneRead hpc =>
      have h₅ : s.pc5.place = 4 := by rw [hpc]; rfl
      exact
        { hi with
          joined := fun _ => hi.joined (by omega)
          reader := rfl
          met := fun _ => by simp [Pc5.place]
          met' := fun _ => hi.met' (by omega)
          data := hi.data_of_place Iff.rfl (by simp [hpc, Pc5.place])
          sent := fun _ => hi.sent (by omega)
          got := fun _ => hi.got (by omega) }

/-- **Every step keeps the invariant.** -/
theorem Inv.move {s' : St} {p : Member} {e : Option Event} (hi : Inv P s)
    (hm : Move P s p e s') : Inv P s' := by
  cases p with
  | three => exact hi.move_three hm
  | four => cases hm
  | five => exact hi.move_five hm

end Steps

/-- Process 3 can end once it has written the message. -/
theorem Inv.exit3 {P : Pids} {s : St} (hi : Inv P s) (hsent : 6 < s.pc3.place) :
    Inv P s.exit3 := by
  have hleave := Fifo.End.leave_eq (hi.reader_ne.2 (hi.met (by omega)))
  have hclosed : s.fifo.hangUpWrite = { s.fifo with writer := .closed } := by
    have hw := hi.writer
    rw [Pc3.writer, if_neg (by omega)] at hw
    split at hw
    · rw [Fifo.hangUpWrite_eq hw, hleave]
    · rw [Fifo.hangUpWrite_of_ne (by simp [hw]), ← hw]
  rw [St.exit3, hclosed]
  exact hi.later3 (by omega) (Pc3.place_le _) (by decide) (hi.found (by omega)) rfl rfl
    (fun _ => hi.met (by omega)) (hi.data_of_place (by simp [hsent]) Iff.rfl)

/-- Process 5 can end once it has joined the group. -/
theorem Inv.exit5 {P : Pids} {s : St} (hi : Inv P s) (hjoined : 3 < s.pc5.place) :
    Inv P s.exit5 := by
  have hsent := hi.sent (by omega)
  have hclosed : s.fifo.hangUpRead = { s.fifo with reader := .closed } := by
    have hr := hi.reader
    rw [Pc5.reader, if_neg (by omega)] at hr
    split at hr
    · rw [Fifo.hangUpRead_eq hr, Fifo.End.leave_eq (hi.writer_ne.2 (by omega))]
    · rw [Fifo.hangUpRead_of_ne (by simp [hr]), ← hr]
  rw [St.exit5, hclosed]
  exact
    { hi with
      joined := fun _ => hi.joined hjoined
      reader := rfl
      met := fun _ => by simp
      met' := fun _ => hi.met' (by omega)
      data := hi.data.trans (if_congr (by simp; omega) rfl rfl)
      sent := fun _ => hsent
      got := fun _ => hi.got (by omega) }

/-- What a step of the successful runs can be. -/
theorem move_of_step {P : Pids} {s s' : St} {a : Label} (hi : Inv P s)
    (h : (successful P).step s a s') : Move P s a.1.1 a.2 s' := by
  obtain ⟨hstep, hok⟩ := h
  obtain ⟨⟨p, r⟩, e⟩ := a
  cases p with
  | three =>
      obtain rfl : r = .ok := by simpa [Succeeds] using hok
      exact move_of_process3 hi hstep
  | four => cases hstep
  | five => exact move_of_process5 hi (by simpa [Succeeds] using hok) hstep

/-- **The invariant holds in every state of the successful runs.** -/
theorem inv {P : Pids} {as : List Label} {s : St} (h : (successful P).Exec as s) : Inv P s :=
  h.state_invariant (fun _ => inv_of_init) fun _ _ _ hi hs => hi.move (move_of_step hi hs)

/-! ### Nobody waits for ever -/

/-- Process 3 waits in its open only, and only until process 5 opens the FIFO. -/
theorem reader_of_blocked {P : Pids} {s : St} (hi : Inv P s) (h : Blocked P s .three) :
    s.fifo.reader = .idle := by
  obtain ⟨hne, hnone⟩ := h
  cases hpc : s.pc3 with
  | opening => simpa [process3, hpc] using hnone
  | creat =>
      have hw := hi.writer
      have hfound := hi.found (by rw [hpc]; decide)
      rw [hpc] at hw
      simp [process3, hpc, hfound, Fifo.perform_openWrite hw] at hnone
  | setpgidSelf | mkfifo | write =>
      simp only [process3, hpc, reduceCtorEq, if_false] at hnone
      split at hnone <;> simp at hnone
  | setpgidChild | access | close | after => simp [process3, hpc] at hnone
  | ended => exact absurd hpc hne

/-- Process 5 does not wait before it opens the FIFO. -/
theorem reader_of_blocked_five {P : Pids} {s : St} (hi : Inv P s) (h : Blocked P s .five) :
    s.fifo.reader ≠ .idle := by
  obtain ⟨hne, hnone⟩ := h
  rw [hi.reader_ne]
  cases hpc : s.pc5 with
  | «open» =>
      have hr := hi.reader
      rw [hpc] at hr
      simp only [process5, hpc, Fifo.perform_openRead hr, Option.map_some] at hnone
      split at hnone <;> cases hnone
  | _ => decide

/-- **The hand-over.**  Process 5 joins a group only when process 3 leads it and process 4 is in it,
no read is short, and processes 3 and 5 never wait for each other. -/
theorem handed_over {P : Pids} {as : List Label} {s : St} (h : (successful P).Exec as s) :
    (∀ a s' p pgid, (successful P).step s a s' → a.2 = some (.setpgid .five p pgid) →
      p = .five ∧ pgid = P.pid .three ∧ s.pgid .three = P.pid .three ∧
        s.pgid .four = P.pid .three ∧ ∀ q, s'.pgid q = P.pid .three) ∧
    (∀ a ∈ as, ∀ num, a.2 = some (.read num) → num = 8) ∧
    ¬ (Blocked P s .three ∧ Blocked P s .five) := by
  have hi := inv h
  refine ⟨?_, ?_, ?_⟩
  · rintro ⟨⟨_, _⟩, _⟩ s' p pgid hs rfl
    have hm := move_of_step hi hs
    have hi' := hi.move hm
    cases hm with
    | setpgid hpc =>
        have hsent := hi.sent (by rw [hpc]; decide)
        refine ⟨rfl, rfl, hi.leader (by omega), hi.moved (by omega), fun q => ?_⟩
        cases q with
        | three => exact hi'.leader (by simp; omega)
        | four => exact hi'.moved (by simp; omega)
        | five => exact hi'.joined (by simp [Pc5.place])
  · refine h.forall_labels ?_
    rintro as s ⟨⟨_, _⟩, _⟩ s' hr hs num rfl
    have hm := move_of_step (inv hr) hs
    cases hm
    rfl
  · rintro ⟨hthree, hfive⟩
    exact reader_of_blocked_five hi hfive (reader_of_blocked hi hthree)

/-- Some process ids. -/
def pids : Pids where
  pid
    | .three => 103
    | .four => 104
    | .five => 105
  group := 100
  pos p := by cases p <;> decide
  lt p := by cases p <;> decide
  fresh p := by cases p <;> decide

/-- A start without the FIFO. -/
def started : St := ⟨false, Fifo.unused, fun _ => 100, .setpgidSelf, .open, List.replicate 8 0⟩

/-- Process 5 polls once too early, waits in its open, and reads after process 3 has closed. -/
def choices : List (Member × Outcome) :=
  [(.five, .ok), (.three, .ok), (.three, .ok), (.three, .ok), (.three, .ok), (.five, .ok),
    (.three, .ok), (.three, .ok), (.three, .ok), (.three, .ok), (.five, .ok), (.five, .ok)]

/-- There process 5 comes to its `setpgid`. -/
theorem exec_choices : ∃ as s, (successful pids).Exec as s ∧ s.pc5 = .setpgid ∧
    s.pgid_3 = message pids := by
  have h : ∃ r, Lts.perform (next pids) started choices = some r ∧ r.1.pc5 = .setpgid ∧
      r.1.pgid_3 = message pids := ⟨_, rfl, rfl, rfl⟩
  obtain ⟨⟨s, es⟩, hperform, hpc, hmsg⟩ := h
  refine ⟨_, s, Lts.Exec.of_perform ⟨rfl, rfl, rfl, rfl, rfl⟩ hperform ?_, hpc, hmsg⟩
  intro c hc s e
  have hok : ∀ c ∈ choices, c.2 = .ok := by decide
  exact Or.inl (hok c hc)

/-- The step that follows puts all three into the group 103. -/
theorem handed_over_choices : ∃ as s a s', (successful pids).Exec as s ∧
    (successful pids).step s a s' ∧ a.2 = some (.setpgid .five .five 103) ∧
    ∀ q, s'.pgid q = 103 := by
  obtain ⟨as, s, hex, hpc, hmsg⟩ := exec_choices
  have hstep : (successful pids).step s ((.five, .ok), some (.setpgid .five .five 103))
      ((s.join .five 103).goto5 .after) := by
    refine ⟨?_, Or.inl rfl⟩
    have hthree : CInt.wrap 4 (CInt.ofBytes s.pgid_3) = 103 := by rw [hmsg, wrap_message]; rfl
    change process5 pids s .ok = _
    simp [process5, hpc, hthree, setpgid]
  obtain ⟨hset, -, -⟩ := handed_over hex
  obtain ⟨-, -, -, -, hall⟩ := hset _ _ _ _ hstep rfl
  exact ⟨as, s, _, _, hex, hstep, rfl, hall⟩

end GroupHandover
