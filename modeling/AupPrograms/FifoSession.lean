/-
**A client that sends lines through a FIFO to a server** (`assignment_3/client.c`,
`assignment_3/server.c`).

The client makes the FIFO "america" and writes to it each line that it reads from standard input;
the server prints what it reads, at most 300 bytes at a time, until a read returns no bytes.  Writes
can be merged or cut by the reads, an empty line writes nothing, and every call may fail.

Whatever happens, the two processes use the FIFO as `Fifo.system` allows (`FifoSession.simulates`),
so the bytes printed are the first bytes written, in order, and all of them when a read has returned
no bytes.  The array of the server has 100 bytes, however, and is large enough only when all lines
together are shorter than that.

Main definitions:

* `FifoSession.St`, `FifoSession.client`, `FifoSession.server` — the two programs;
* `FifoSession.printed` — what the server prints of the bytes it reads;
* `FifoSession.InBounds` — a read that the array of the server has room for.

Main results:

* `FifoSession.delivered_in_order` — **what is printed is what has been written so far, and all of
  it when the loop of the server has stopped**;
* `FifoSession.inBounds_iff` — **every read is in bounds exactly when all lines together are shorter
  than 100 bytes.**
-/

import AupPrograms.CText
import AupPrograms.Fifo

set_option relaxedAutoImplicit false
set_option autoImplicit false

namespace FifoSession

open CText

/-! ### The two programs -/

/-- Where the client is. -/
inductive ClientPc
  | mkfifo
  | open
  | opening
  | gets
  | statBefore
  | write
  | statAfter
  | close
  | returned
  deriving DecidableEq

/-- Where the server is; `stat num` is after a read that returned `num`. -/
inductive ServerPc
  | open
  | opening
  | read
  | stat (num : ℕ)
  | close
  | returned
  | failed
  deriving DecidableEq

/-- The FIFO and the two processes. -/
structure St where
  /-- "america" exists. -/
  present : Bool
  fifo : Fifo UInt8
  /-- What is left of the standard input of the client. -/
  stdin : List UInt8
  /-- The line in the array of the client. -/
  line : List UInt8
  client : ClientPc
  server : ServerPc

/-- What a step does to the FIFO. -/
abbrev Event := Option (Fifo.Op UInt8)

namespace St

def clientTo (s : St) (pc : ClientPc) : St := { s with client := pc }

def serverTo (s : St) (pc : ServerPc) : St := { s with server := pc }

/-- An operation on the FIFO, where it is possible. -/
def use (s : St) (op : Fifo.Op UInt8) : Option (St × Event) :=
  (s.fifo.perform op).map fun f => ({ s with fifo := f }, some op)

/-- The client ends; its end of the FIFO is closed if it has opened it. -/
def clientEnd (s : St) : St × Event :=
  ((s.clientTo .returned).use .closeWrite).getD (s.clientTo .returned, none)

/-- The server ends, in its last statement or earlier. -/
def serverEnd (s : St) (pc : ServerPc) : St × Event :=
  ((s.serverTo pc).use .closeRead).getD (s.serverTo pc, none)

end St

/-- A step of the client, whose call fails unless `ok`.  The FIFO has room for `capacity` bytes. -/
def client (capacity : ℕ) (s : St) (ok : Bool) : Option (St × Event) :=
  match s.client with
  | .mkfifo =>
      if ok ∧ s.present = false then some ({ s with present := true }.clientTo .open, none)
      else some s.clientEnd
  | .open => if ok then (s.clientTo .opening).use .openWrite else some s.clientEnd
  | .opening =>
      if s.fifo.reader = .idle then if ok then none else some s.clientEnd
      else some (s.clientTo .gets, none)
  | .gets =>
      let got := gets s.stdin
      if got.eof then some ({ s with stdin := [] }.clientTo .close, none)
      -- a longer line overruns the array
      else if got.line.length < 300 then
        some ({ s with stdin := got.rest, line := got.line }.clientTo .statBefore, none)
      else none
  | .statBefore => some (if ok then (s.clientTo .write, none) else s.clientEnd)
  | .write =>
      let bytes := cstr s.line
      if ok = false then some s.clientEnd
      else if bytes = [] then some (s.clientTo .statAfter, none)
      -- nobody can read: SIGPIPE ends the process
      else if s.fifo.reader ≠ .active then some s.clientEnd
      -- the bytes are written together, and wait until there is room for all of them
      else if s.fifo.data.length + bytes.length ≤ capacity then
        (s.clientTo .statAfter).use (.write bytes)
      else none
  | .statAfter => some (if ok then (s.clientTo .gets, none) else s.clientEnd)
  | .close => some s.clientEnd
  | .returned => none

/-- A step of the server, whose call fails unless `ok`.  A read takes `num` bytes if there are as
many and at most 300. -/
def server (s : St) (ok : Bool) (num : ℕ) : Option (St × Event) :=
  match s.server with
  | .open =>
      if ok ∧ s.present then (s.serverTo .opening).use .openRead else some (s.serverEnd .failed)
  | .opening =>
      if s.fifo.writer = .idle then if ok then none else some (s.serverEnd .failed)
      else some (s.serverTo .read, none)
  | .read =>
      if ok = false then some (s.serverEnd .failed)
      else
        match (s.serverTo (.stat 0)).use .eof with
        | some r => some r
        | none =>
            let bytes := s.fifo.data.take (min num 300)
            (s.serverTo (.stat bytes.length)).use (.read bytes)
  | .stat num =>
      some (if ok then (s.serverTo (if 0 < num then .read else .close), none)
        else s.serverEnd .failed)
  | .close => some (s.serverEnd .returned)
  | .returned | .failed => none

/-- Who makes a step, how its call ends, and how much the server reads. -/
inductive Choice
  | client (ok : Bool)
  | server (ok : Bool) (num : ℕ)
  deriving DecidableEq

def next (capacity : ℕ) (s : St) : Choice → Option (St × Event)
  | .client ok => client capacity s ok
  | .server ok num => server s ok num

/-- The client has the input `stdin`. -/
structure Init (stdin : List UInt8) (s : St) : Prop where
  fifo : s.fifo = Fifo.unused
  stdin : s.stdin = stdin
  client : s.client = .mkfifo
  server : s.server = .open

abbrev Label := Choice × Event

/-- The client and the server. -/
def system (capacity : ℕ) (stdin : List UInt8) : Lts St Label :=
  Lts.ofNext (Init stdin) (next capacity)

/-! ### What is written and printed -/

/-- What happens to the FIFO during a run. -/
def ops (as : List Label) : List (Fifo.Op UInt8) := as.filterMap Prod.snd

/-- The bytes that the client writes during a run. -/
def wrote (as : List Label) : List UInt8 := Fifo.written (ops as)

/-- The payloads that the server prints: what it reads, as C strings. -/
def printed (as : List Label) : List UInt8 := (ops as).flatMap fun op => cstr op.output

/-- The loop of the server has stopped because a read returned no bytes. -/
def Stopped (s : St) : Prop := s.server = .close ∨ s.server = .returned

/-! ### What a step can be -/

/-- **The steps of the two programs.** -/
inductive Move (s : St) : Event → St → Prop
  | mkfifo : s.client = .mkfifo → Move s none ({ s with present := true }.clientTo .open)
  | openWrite {f : Fifo UInt8} : s.client = .open → s.fifo.perform .openWrite = some f →
      Move s (some .openWrite) { s.clientTo .opening with fifo := f }
  | openedWrite : s.client = .opening → Move s none (s.clientTo .gets)
  | gets : s.client = .gets → (gets s.stdin).eof = false →
      Move s none
        ({ s with stdin := (gets s.stdin).rest, line := (gets s.stdin).line }.clientTo .statBefore)
  | eofIn : s.client = .gets → (CText.gets s.stdin).eof = true →
      Move s none ({ s with stdin := [] }.clientTo .close)
  | statBefore : s.client = .statBefore → Move s none (s.clientTo .write)
  | skip : s.client = .write → cstr s.line = [] → Move s none (s.clientTo .statAfter)
  | write {f : Fifo UInt8} : s.client = .write →
      s.fifo.perform (.write (cstr s.line)) = some f →
      Move s (some (.write (cstr s.line))) { s.clientTo .statAfter with fifo := f }
  | statAfter : s.client = .statAfter → Move s none (s.clientTo .gets)
  | clientEnd : Move s none (s.clientTo .returned)
  | closeWrite {f : Fifo UInt8} : s.fifo.perform .closeWrite = some f →
      Move s (some .closeWrite) { s.clientTo .returned with fifo := f }
  | openRead {f : Fifo UInt8} : s.server = .open → s.fifo.perform .openRead = some f →
      Move s (some .openRead) { s.serverTo .opening with fifo := f }
  | openedRead : s.server = .opening → Move s none (s.serverTo .read)
  | read {f : Fifo UInt8} {bytes : List UInt8} : s.server = .read →
      s.fifo.perform (.read bytes) = some f →
      Move s (some (.read bytes)) { s.serverTo (.stat bytes.length) with fifo := f }
  | eof {f : Fifo UInt8} : s.server = .read → s.fifo.perform .eof = some f →
      Move s (some .eof) { s.serverTo (.stat 0) with fifo := f }
  | again {num : ℕ} : s.server = .stat num → 0 < num → Move s none (s.serverTo .read)
  | stop : s.server = .stat 0 → Move s none (s.serverTo .close)
  | serverEnd {pc : ServerPc} : pc = .failed ∨ s.server = .close ∧ pc = .returned →
      Move s none (s.serverTo pc)
  | closeRead {pc : ServerPc} {f : Fifo UInt8} :
      pc = .failed ∨ s.server = .close ∧ pc = .returned → s.fifo.perform .closeRead = some f →
      Move s (some .closeRead) { s.serverTo pc with fifo := f }

theorem use_eq {s s' : St} {op : Fifo.Op UInt8} {e : Event} (h : s.use op = some (s', e)) :
    ∃ f, s.fifo.perform op = some f ∧ s' = { s with fifo := f } ∧ e = some op := by
  obtain ⟨f, hf, heq⟩ := Option.map_eq_some_iff.1 h
  obtain ⟨rfl, rfl⟩ := Prod.mk.inj heq
  exact ⟨f, hf, rfl, rfl⟩

theorem move_clientEnd {s s' : St} {e : Event} (h : s.clientEnd = (s', e)) : Move s e s' := by
  unfold St.clientEnd at h
  cases hu : (s.clientTo .returned).use .closeWrite with
  | none =>
      rw [hu] at h
      cases h
      exact .clientEnd
  | some r =>
      rw [hu] at h
      obtain rfl : r = (s', e) := h
      obtain ⟨f, hf, rfl, rfl⟩ := use_eq hu
      exact .closeWrite hf

theorem move_serverEnd {s s' : St} {pc : ServerPc} {e : Event}
    (hpc : pc = .failed ∨ s.server = .close ∧ pc = .returned) (h : s.serverEnd pc = (s', e)) :
    Move s e s' := by
  unfold St.serverEnd at h
  cases hu : (s.serverTo pc).use .closeRead with
  | none =>
      rw [hu] at h
      cases h
      exact .serverEnd hpc
  | some r =>
      rw [hu] at h
      obtain rfl : r = (s', e) := h
      obtain ⟨f, hf, rfl, rfl⟩ := use_eq hu
      exact .closeRead hpc hf

theorem move_of_client {capacity : ℕ} {s s' : St} {ok : Bool} {e : Event}
    (h : client capacity s ok = some (s', e)) : Move s e s' := by
  cases hpc : s.client with
  | mkfifo =>
      simp only [client, hpc] at h
      split at h
      · obtain ⟨rfl, rfl⟩ := Prod.mk.inj (Option.some.inj h)
        exact .mkfifo hpc
      · exact move_clientEnd (Option.some.inj h)
  | «open» =>
      simp only [client, hpc] at h
      split at h
      · obtain ⟨f, hf, rfl, rfl⟩ := use_eq h
        exact .openWrite hpc hf
      · exact move_clientEnd (Option.some.inj h)
  | opening =>
      simp only [client, hpc] at h
      split at h
      · split at h
        · cases h
        · exact move_clientEnd (Option.some.inj h)
      · obtain ⟨rfl, rfl⟩ := Prod.mk.inj (Option.some.inj h)
        exact .openedWrite hpc
  | gets =>
      simp only [client, hpc] at h
      split at h
      · obtain ⟨rfl, rfl⟩ := Prod.mk.inj (Option.some.inj h)
        exact .eofIn hpc ‹_›
      · rename_i heof
        split at h
        · obtain ⟨rfl, rfl⟩ := Prod.mk.inj (Option.some.inj h)
          exact .gets hpc (by simpa using heof)
        · cases h
  | statBefore =>
      simp only [client, hpc] at h
      split at h
      · obtain ⟨rfl, rfl⟩ := Prod.mk.inj (Option.some.inj h)
        exact .statBefore hpc
      · exact move_clientEnd (Option.some.inj h)
  | write =>
      simp only [client, hpc] at h
      split at h
      · exact move_clientEnd (Option.some.inj h)
      · split at h
        · obtain ⟨rfl, rfl⟩ := Prod.mk.inj (Option.some.inj h)
          exact .skip hpc ‹_›
        · split at h
          · exact move_clientEnd (Option.some.inj h)
          · split at h
            · obtain ⟨f, hf, rfl, rfl⟩ := use_eq h
              exact .write hpc hf
            · cases h
  | statAfter =>
      simp only [client, hpc] at h
      split at h
      · obtain ⟨rfl, rfl⟩ := Prod.mk.inj (Option.some.inj h)
        exact .statAfter hpc
      · exact move_clientEnd (Option.some.inj h)
  | close => exact move_clientEnd (by simpa [client, hpc] using h)
  | returned => simp [client, hpc] at h

theorem move_of_server {s s' : St} {ok : Bool} {num : ℕ} {e : Event}
    (h : server s ok num = some (s', e)) : Move s e s' := by
  cases hpc : s.server with
  | «open» =>
      simp only [server, hpc] at h
      split at h
      · obtain ⟨f, hf, rfl, rfl⟩ := use_eq h
        exact .openRead hpc hf
      · exact move_serverEnd (Or.inl rfl) (Option.some.inj h)
  | opening =>
      simp only [server, hpc] at h
      split at h
      · split at h
        · cases h
        · exact move_serverEnd (Or.inl rfl) (Option.some.inj h)
      · obtain ⟨rfl, rfl⟩ := Prod.mk.inj (Option.some.inj h)
        exact .openedRead hpc
  | read =>
      simp only [server, hpc] at h
      split at h
      · exact move_serverEnd (Or.inl rfl) (Option.some.inj h)
      · split at h
        · rename_i r hr
          obtain rfl := Option.some.inj h
          obtain ⟨f, hf, rfl, rfl⟩ := use_eq hr
          exact .eof hpc hf
        · obtain ⟨f, hf, rfl, rfl⟩ := use_eq h
          exact .read hpc hf
  | stat n =>
      simp only [server, hpc] at h
      split at h
      · obtain ⟨rfl, rfl⟩ := Prod.mk.inj (Option.some.inj h)
        rcases Nat.eq_zero_or_pos n with rfl | hn
        · exact .stop hpc
        · rw [if_pos hn]
          exact .again hpc hn
      · exact move_serverEnd (Or.inl rfl) (Option.some.inj h)
  | close => exact move_serverEnd (Or.inr ⟨hpc, rfl⟩) (by simpa [server, hpc] using h)
  | returned | failed => simp [server, hpc] at h

theorem move_of_step {capacity : ℕ} {stdin : List UInt8} {s s' : St} {a : Label}
    (h : (system capacity stdin).step s a s') : Move s a.2 s' := by
  obtain ⟨c, e⟩ := a
  cases c with
  | client ok => exact move_of_client h
  | server ok num => exact move_of_server h

/-! ### The session as a run of the FIFO -/

/-- A step does to the FIFO what it says. -/
def Tracks (s : St) (e : Event) (s' : St) : Prop :=
  match e with
  | none => s'.fifo = s.fifo
  | some op => s.fifo.perform op = some s'.fifo

theorem Move.tracks {s s' : St} {e : Event} (h : Move s e s') : Tracks s e s' := by
  cases h with
  | openWrite _ hf | write _ hf | openRead _ hf | read _ hf | eof _ hf | closeWrite hf
  | closeRead _ hf => exact hf
  | _ => rfl

/-- **The two programs use the FIFO as it allows.** -/
theorem simulates (capacity : ℕ) (stdin : List UInt8) :
    (system capacity stdin).Simulates Prod.snd Fifo.system fun s f => s.fifo = f where
  init s hs := ⟨_, rfl, hs.fifo⟩
  silent as s a s₁ f _ hR hs ha := by
    have ht := (move_of_step hs).tracks
    rw [ha] at ht
    exact ht.trans hR
  visible as s a op s₁ f _ hR hs ha := by
    have ht := (move_of_step hs).tracks
    rw [ha] at ht
    exact ⟨_, hR ▸ ht, rfl⟩

theorem exec_fifo {capacity : ℕ} {stdin : List UInt8} {as : List Label} {s : St}
    (h : (system capacity stdin).Exec as s) : Fifo.system.Exec (ops as) s.fifo := by
  obtain ⟨f, hf, rfl⟩ := (simulates capacity stdin).exec h
  exact hf

/-! ### What is printed -/

@[simp] theorem ops_snoc (as : List Label) (a : Label) :
    ops (as ++ [a]) = ops as ++ a.2.toList := by
  cases h : a.2 <;> simp [ops, h]

/-- The client writes no zero byte. -/
theorem input_ne_zero {s s' : St} {op : Fifo.Op UInt8} (h : Move s (some op) s') :
    ∀ b ∈ op.input, b ≠ 0 := by
  intro b hb
  cases h with
  | write _ _ => exact ne_zero_of_mem_cstr hb
  | openWrite | closeWrite | openRead | read | eof | closeRead => cases hb

theorem wrote_ne_zero {capacity : ℕ} {stdin : List UInt8} {as : List Label} {s : St}
    (h : (system capacity stdin).Exec as s) : ∀ b ∈ wrote as, b ≠ 0 := by
  intro b hb
  obtain ⟨op, hop, hb⟩ := List.mem_flatMap.1 hb
  obtain ⟨a, ha, hop⟩ := List.mem_filterMap.1 hop
  refine h.forall_labels (Q := fun a => ∀ op, a.2 = some op → ∀ b ∈ op.input, b ≠ 0) ?_ a ha op hop
    b hb
  rintro as s ⟨c, _⟩ s' _ hs op rfl
  exact input_ne_zero (move_of_step hs)

/-- So the server prints all that it reads. -/
theorem printed_eq {capacity : ℕ} {stdin : List UInt8} {as : List Label} {s : St}
    (h : (system capacity stdin).Exec as s) : printed as = Fifo.received (ops as) := by
  have hdelivered : wrote as = _ := Fifo.delivered (exec_fifo h)
  refine List.flatMap_congr fun op hop => cstr_eq_self fun b hb => wrote_ne_zero h b ?_
  rw [hdelivered]
  exact List.mem_append_left _ (List.mem_flatMap.2 ⟨op, hop, hb⟩)

/-- When the loop of the server has stopped, a read has returned no bytes. -/
theorem eof_of_stopped {capacity : ℕ} {stdin : List UInt8} {as : List Label} {s : St}
    (h : (system capacity stdin).Exec as s) (hstopped : Stopped s) : Fifo.Op.eof ∈ ops as := by
  refine Lts.Exec.invariant
    (I := fun as s => s.server = .stat 0 ∨ Stopped s → Fifo.Op.eof ∈ ops as) ?_ ?_ h
    (Or.inr hstopped)
  · rintro s hs hpc
    rcases hpc with hpc | hpc | hpc <;> simp [hs.server] at hpc
  · rintro as s ⟨c, e⟩ s' _ ih hs hpc
    rw [ops_snoc, List.mem_append]
    cases move_of_step hs with
    | eof _ _ => exact Or.inr (by simp)
    | stop hstat => exact Or.inl (ih (Or.inl hstat))
    | read _ hf =>
        -- a read that returns bytes is not the last one
        obtain ⟨⟨-, hne, -⟩, -⟩ := Option.ite_none_right_eq_some.1 hf
        simp [Stopped, St.serverTo, hne] at hpc
    | openRead _ _ | openedRead _ | again _ _ => simp [Stopped, St.serverTo] at hpc
    | serverEnd hend | closeRead hend _ =>
        rcases hend with rfl | ⟨hclose, rfl⟩
        · simp [Stopped, St.serverTo] at hpc
        · exact Or.inl (ih (Or.inr (Or.inl hclose)))
    | mkfifo | openWrite | openedWrite | gets | eofIn | statBefore | skip | write | statAfter
    | clientEnd | closeWrite => exact Or.inl (ih hpc)

/-- **Everything is delivered once and in order.**  What the server has printed is the first bytes
that the client has written; its loop stops only when the client has closed the FIFO, and then it
has printed all of them. -/
theorem delivered_in_order {capacity : ℕ} {stdin : List UInt8} {as : List Label} {s : St}
    (h : (system capacity stdin).Exec as s) :
    printed as <+: wrote as ∧ (Stopped s → s.fifo.writer = .closed ∧ printed as = wrote as) := by
  have hdelivered : wrote as = Fifo.received (ops as) ++ s.fifo.data := Fifo.delivered (exec_fifo h)
  rw [printed_eq h]
  refine ⟨⟨_, hdelivered.symm⟩, fun hstopped => ?_⟩
  obtain ⟨hclosed, hdata⟩ := Fifo.ended (exec_fifo h) (eof_of_stopped h hstopped)
  exact ⟨hclosed, by rw [hdelivered, hdata, List.append_nil]⟩

/-- The lines "hi" and "yo" go through the session; the first read takes three bytes, the second one
what is left. -/
theorem exec_cut : ∃ as s, (system 512 [104, 105, 10, 121, 111, 10]).Exec as s ∧ Stopped s ∧
    wrote as = [104, 105, 121, 111] ∧ [104, 105, 121] ∈ (ops as).map Fifo.Op.output := by
  let s₀ : St := ⟨false, Fifo.unused, [104, 105, 10, 121, 111, 10], [], .mkfifo, .open⟩
  let cs : List Choice := List.replicate 2 (.client true) ++ List.replicate 2 (.server true 300) ++
    List.replicate 11 (.client true) ++ List.replicate 2 (.server true 3) ++
      List.replicate 4 (.server true 300)
  have h : (Lts.perform (next 512) s₀ cs).map
      (fun r => (r.1.server, wrote (cs.zip r.2),
        decide ([104, 105, 121] ∈ (ops (cs.zip r.2)).map Fifo.Op.output)))
      = some (.close, [104, 105, 121, 111], true) := by decide
  obtain ⟨⟨s, es⟩, hperform, hs⟩ := Option.map_eq_some_iff.1 h
  simp only [Prod.mk.injEq, decide_eq_true_eq] at hs
  obtain ⟨hserver, hwrote, hread⟩ := hs
  exact ⟨_, s, ⟨s₀, ⟨rfl, rfl, rfl, rfl⟩, (Lts.run_of_perform hperform).1⟩, Or.inl hserver, hwrote,
    hread⟩

theorem delivered_in_order_cut : ∃ as s, (system 512 [104, 105, 10, 121, 111, 10]).Exec as s ∧
    Stopped s ∧ [104, 105, 121] ∈ (ops as).map Fifo.Op.output ∧
      printed as = [104, 105, 121, 111] := by
  obtain ⟨as, s, hex, hstopped, hwrote, hread⟩ := exec_cut
  obtain ⟨-, hprinted⟩ := (delivered_in_order hex).2 hstopped
  exact ⟨as, s, hex, hstopped, hread, hprinted.trans hwrote⟩

/-! ### The array of the server -/

/-- What the client would write of an input. -/
def text (stdin : List UInt8) : List UInt8 := (lines stdin).flatMap cstr

/-- What the client may still write. -/
def pending (s : St) : List UInt8 :=
  match s.client with
  | .statBefore | .write => cstr s.line ++ text s.stdin
  | .returned => []
  | _ => text s.stdin

theorem text_of_gets {stdin : List UInt8} (h : (gets stdin).eof = false) :
    text stdin = cstr (gets stdin).line ++ text (gets stdin).rest := by
  rw [text, lines_of_gets, h, if_neg Bool.false_ne_true, List.flatMap_cons, text]

/-- A step takes what it writes from what is pending. -/
theorem Move.pending {s s' : St} {e : Event} (h : Move s e s') :
    e.toList.flatMap Fifo.Op.input ++ pending s' <+: pending s := by
  cases h with
  | mkfifo hpc | openedWrite hpc | statBefore hpc | statAfter hpc =>
      simp [FifoSession.pending, St.clientTo, hpc]
  | openWrite hpc _ => simp [FifoSession.pending, St.clientTo, hpc, Fifo.Op.input]
  | gets hpc heof => simp [FifoSession.pending, St.clientTo, hpc, text_of_gets heof]
  | eofIn hpc _ => simp [FifoSession.pending, St.clientTo, hpc, text, lines]
  | skip hpc hempty => simp [FifoSession.pending, St.clientTo, hpc, hempty]
  | write hpc _ => simp [FifoSession.pending, St.clientTo, hpc, Fifo.Op.input]
  | clientEnd => exact List.nil_prefix
  | closeWrite _ => exact List.nil_prefix
  | openRead | openedRead | read | eof | again | stop | serverEnd | closeRead =>
      exact List.prefix_rfl

/-- **What the client writes is the first of its input.** -/
theorem wrote_isPrefix {capacity : ℕ} {stdin : List UInt8} {as : List Label} {s : St}
    (h : (system capacity stdin).Exec as s) : wrote as ++ pending s <+: text stdin := by
  refine Lts.Exec.invariant (I := fun as s => wrote as ++ pending s <+: text stdin) ?_ ?_ h
  · intro s hs
    simp [wrote, ops, Fifo.written, pending, hs.client, hs.stdin]
  · rintro as s ⟨c, e⟩ s' _ ih hs
    have hsnoc : wrote (as ++ [(c, e)]) = wrote as ++ e.toList.flatMap Fifo.Op.input := by
      rw [wrote, ops_snoc, Fifo.written, List.flatMap_append]
      rfl
    rw [hsnoc, List.append_assoc]
    exact ((List.prefix_append_right_inj _).2 (move_of_step hs).pending).trans ih

/-- A read that the array of the server has room for, with the terminator behind it. -/
def InBounds (a : Label) : Prop :=
  ∀ bytes, a.2 = some (.read bytes) → bytes.length ≤ 100 ∧ bytes.length < 100

/-- What is read at once has been written. -/
theorem length_le_of_read {capacity : ℕ} {stdin : List UInt8} {as : List Label} {s : St}
    (h : (system capacity stdin).Exec as s) {a : Label} (ha : a ∈ as) {bytes : List UInt8}
    (hread : a.2 = some (.read bytes)) : bytes.length ≤ (text stdin).length := by
  have hop : .read bytes ∈ ops as := List.mem_filterMap.2 ⟨a, ha, hread⟩
  have hdelivered : wrote as = Fifo.received (ops as) ++ s.fifo.data := Fifo.delivered (exec_fifo h)
  calc bytes.length ≤ (Fifo.received (ops as)).length := Fifo.length_output_le hop
    _ ≤ (wrote as).length := by rw [hdelivered]; exact (List.prefix_append _ _).length_le
    _ ≤ (text stdin).length := ((List.prefix_append _ _).trans (wrote_isPrefix h)).length_le

/-- The client waits for its next line and the server for a read, with `data` in the FIFO. -/
structure Ready (s : St) (data : List UInt8) : Prop where
  client : s.client = .gets
  server : s.server = .read
  fifo : s.fifo = ⟨data, .active, .active⟩

/-- One line goes into the FIFO. -/
theorem run_line {capacity : ℕ} {stdin : List UInt8} {s : St} {data l : List UInt8}
    {ls : List (List UInt8)} (h : Ready s data) (hl : lines s.stdin = l :: ls)
    (hshort : l.length < 300) (hroom : data.length + l.length ≤ capacity) :
    ∃ as s', (system capacity stdin).Run s as s' ∧ Ready s' (data ++ cstr l) ∧
      lines s'.stdin = ls := by
  obtain ⟨heof, rfl, hrest⟩ := gets_of_lines hl
  have hle := cstr_length_le (gets s.stdin).line
  let s₁ : St :=
    { s with stdin := (gets s.stdin).rest, line := (gets s.stdin).line }.clientTo .statBefore
  have h₁ : (system capacity stdin).step s (.client true, none) s₁ := by
    change client capacity s true = _
    simp [client, h.client, heof, hshort, s₁]
  have h₂ : (system capacity stdin).step s₁ (.client true, none) (s₁.clientTo .write) := rfl
  -- an empty line writes nothing
  have hwrite : ∃ e, (system capacity stdin).step (s₁.clientTo .write) (.client true, e)
      { s₁.clientTo .statAfter with fifo := ⟨data ++ cstr s₁.line, .active, .active⟩ } := by
    have hfifo : s₁.fifo = ⟨data, .active, .active⟩ := h.fifo
    by_cases hempty : cstr s₁.line = []
    · refine ⟨none, ?_⟩
      rw [hempty, List.append_nil, ← hfifo]
      exact if_pos hempty
    · refine ⟨some (.write (cstr s₁.line)), ?_⟩
      change client capacity (s₁.clientTo .write) true = _
      have hfits : data.length + (cstr s₁.line).length ≤ capacity := by
        change data.length + (cstr (gets s.stdin).line).length ≤ capacity
        omega
      have hperform := Fifo.perform_write (f := ⟨data, .active, .active⟩) rfl rfl (cstr s₁.line)
      simp [client, hempty, hfifo, hfits, St.use, St.clientTo, hperform]
  obtain ⟨e, h₃⟩ := hwrite
  let s₃ : St := { s₁.clientTo .statAfter with fifo := ⟨data ++ cstr s₁.line, .active, .active⟩ }
  have h₄ : (system capacity stdin).step s₃ (.client true, none) (s₃.clientTo .gets) := rfl
  exact ⟨_, s₃.clientTo .gets, (((Lts.Run.single h₁).trans (Lts.Run.single h₂)).trans
    (Lts.Run.single h₃)).trans (Lts.Run.single h₄), ⟨rfl, h.server, rfl⟩, hrest⟩

/-- The client is faster than the server until 100 bytes are in the FIFO. -/
theorem run_fill {capacity : ℕ} (hcap : 512 ≤ capacity) {stdin : List UInt8} {s : St}
    {data : List UInt8} (h : Ready s data) (hshort : ∀ l ∈ lines s.stdin, l.length < 100)
    (hdata : data.length < 200) (htext : 100 ≤ data.length + (text s.stdin).length) :
    ∃ as s' data', (system capacity stdin).Run s as s' ∧ Ready s' data' ∧ 100 ≤ data'.length := by
  induction hl : lines s.stdin generalizing s data with
  | nil =>
      have hempty : text s.stdin = [] := by rw [text, hl, List.flatMap_nil]
      rw [hempty] at htext
      exact ⟨[], s, data, Lts.Run.nil s, h, htext⟩
  | cons l ls ih =>
      rcases Nat.lt_or_ge data.length 100 with hlt | hge
      · have hline := hshort l (by rw [hl]; exact List.mem_cons_self)
        have hle := cstr_length_le l
        obtain ⟨as, s₁, hrun, h₁, hl₁⟩ : ∃ as s', (system capacity stdin).Run s as s' ∧
            Ready s' (data ++ cstr l) ∧ lines s'.stdin = ls :=
          run_line h hl (by omega) (by omega)
        have hsum : (text s.stdin).length = (cstr l).length + (text s₁.stdin).length := by
          rw [text, text, hl, hl₁, List.flatMap_cons, List.length_append]
        obtain ⟨bs, s₂, data', hrun', h₂, hfull⟩ := ih h₁
          (fun l' hl' => hshort l' (by rw [hl]; exact List.mem_cons_of_mem _ (hl₁ ▸ hl')))
          (by rw [List.length_append]; omega) (by rw [List.length_append]; omega) hl₁
        exact ⟨_, s₂, data', hrun.trans hrun', h₂, hfull⟩
      · exact ⟨[], s, data, Lts.Run.nil s, h, hge⟩

/-- Both open the FIFO before anything is written. -/
theorem exec_ready (capacity : ℕ) (stdin : List UInt8) :
    ∃ as s, (system capacity stdin).Exec as s ∧ Ready s [] ∧ s.stdin = stdin := by
  let s₀ : St := ⟨false, Fifo.unused, stdin, [], .mkfifo, .open⟩
  have h : ∃ r, Lts.perform (next capacity) s₀ [.client true, .client true, .server true 0,
      .client true, .server true 0] = some r ∧ Ready r.1 [] ∧ r.1.stdin = stdin :=
    ⟨_, rfl, ⟨rfl, rfl, rfl⟩, rfl⟩
  obtain ⟨⟨s, es⟩, hperform, hready, hstdin⟩ := h
  exact ⟨_, s, ⟨s₀, ⟨rfl, rfl, rfl, rfl⟩, (Lts.run_of_perform hperform).1⟩, hready, hstdin⟩

/-- When the lines together have 100 bytes or more, the server can find 100 bytes or more. -/
theorem exists_overrun {capacity : ℕ} (hcap : 512 ≤ capacity) {stdin : List UInt8}
    (hshort : ∀ l ∈ lines stdin, l.length < 100) (htext : 100 ≤ (text stdin).length) :
    ∃ as s, (system capacity stdin).Exec as s ∧ ∃ a ∈ as, ¬ InBounds a := by
  obtain ⟨as, s, hex, hready, rfl⟩ := exec_ready capacity stdin
  obtain ⟨bs, s₁, data, hrun, h₁, hfull⟩ : ∃ bs s₁ data, (system capacity s.stdin).Run s bs s₁ ∧
      Ready s₁ data ∧ 100 ≤ data.length :=
    run_fill hcap hready hshort (by simp) (by simpa using htext)
  have hne : data.take 300 ≠ [] := by
    intro hnil
    have hlen : (data.take 300).length = 0 := by rw [hnil]; rfl
    rw [List.length_take] at hlen
    omega
  have hread : (system capacity s.stdin).step s₁
      (.server true 300, some (.read (data.take 300)))
      { s₁.serverTo (.stat (data.take 300).length) with
        fifo := ⟨data.drop (data.take 300).length, .active, .active⟩ } := by
    change server s₁ true 300 = _
    have heof : (⟨data, .active, .active⟩ : Fifo UInt8).perform .eof = none :=
      Fifo.perform_eof_of_ne fun hnil => hne (List.take_eq_nil_of_eq_nil hnil)
    have htake := Fifo.perform_read (f := ⟨data, .active, .active⟩) rfl hne (List.take_prefix _ _)
    simp [server, h₁.server, h₁.fifo, St.use, St.serverTo, heof, htake]
  refine ⟨_, _, (hex.trans hrun).trans (Lts.Run.single hread), _,
    List.mem_append_right _ (List.mem_singleton_self _), fun hin => ?_⟩
  have hbound := (hin _ rfl).2
  rw [List.length_take] at hbound
  omega

/-- **When the array of the server is large enough**: for lines shorter than 100 bytes each, every
read of every run is in bounds exactly when all lines together are shorter than 100 bytes. -/
theorem inBounds_iff {capacity : ℕ} (hcap : 512 ≤ capacity) {stdin : List UInt8}
    (hshort : ∀ l ∈ lines stdin, l.length < 100) :
    (∀ as s, (system capacity stdin).Exec as s → ∀ a ∈ as, InBounds a) ↔
      (text stdin).length < 100 := by
  constructor
  · intro hall
    by_contra hge
    obtain ⟨as, s, hex, a, ha, hout⟩ := exists_overrun hcap hshort (by omega)
    exact hout (hall as s hex a ha)
  · intro hlt as s hex a ha bytes hread
    have hle := length_le_of_read hex ha hread
    omega

/-- One short line is always in bounds. -/
theorem inBounds_hi : lines [104, 105, 10] = [[104, 105]] ∧
    ∀ as s, (system 512 [104, 105, 10]).Exec as s → ∀ a ∈ as, InBounds a :=
  ⟨by decide, (inBounds_iff (le_refl 512) (by decide)).2 (by decide)⟩

/-- Two lines of 60 bytes can be read at once. -/
theorem overrun_of_two_lines : ¬ ∀ capacity, 512 ≤ capacity → ∀ stdin,
    (∀ l ∈ lines stdin, l.length < 100) →
      ∀ as s, (system capacity stdin).Exec as s → ∀ a ∈ as, InBounds a := by
  intro hall
  let stdin : List UInt8 := List.replicate 60 97 ++ 10 :: List.replicate 60 97 ++ [10]
  have hshort : ∀ l ∈ lines stdin, l.length < 100 := by decide
  have htext : 100 ≤ (text stdin).length := by decide
  obtain ⟨as, s, hex, a, ha, hout⟩ := exists_overrun (le_refl 512) hshort htext
  exact hout (hall 512 (le_refl 512) stdin hshort as s hex a ha)

end FifoSession
