/-
**A session in which no call fails comes to its end** (`assignment_3/client.c`,
`assignment_3/server.c`).

Each process waits for the other three times: in its `open`, in a `write` for which the FIFO has no
room, and in a `read` of an empty FIFO.  This module shows that the two never wait for each other at
the same time, and that the session is bounded by its input; so every run in which no call fails
ends with both programs returned, and by then the whole input has been printed.

A call that does not fail is not only one that the system does not refuse: the client has to find no
file of the name of the FIFO, and the server has to come after it.

Main definitions:

* `FifoSession.Smooth` — the steps of the runs in which no call fails;
* `FifoSession.Works` — what such a step can be;
* `FifoSession.Sound` — what the two processes know of each other in such a run;
* `FifoSession.rank` — the steps that are left.

Main results:

* `FifoSession.works_of_step` — the inversion of a step;
* `FifoSession.sound` — the invariant;
* `FifoSession.exists_step` — **the two processes never wait for each other**;
* `FifoSession.session_completes` — **every run in which no call fails is bounded and ends with the
  whole input printed.**
-/

import AupPrograms.Completion
import AupPrograms.FifoSession

set_option relaxedAutoImplicit false
set_option autoImplicit false

namespace FifoSession

open CText

/-- A line that `gets` reads is the first one. -/
theorem lines_of_not_eof {bs : List UInt8} (h : (gets bs).eof = false) :
    lines bs = (gets bs).line :: lines (gets bs).rest := by
  rw [lines_of_gets, h, if_neg Bool.false_ne_true]

/-! ### Runs in which no call fails -/

/-- The call of the step does not fail. -/
def Smooth (s : St) (a : Label) : Prop :=
  match a.1 with
  | .client ok => ok = true ∧ (s.client = .mkfifo → s.present = false)
  | .server ok _ => ok = true ∧ (s.server = .open → s.present = true)

/-- The runs in which no call fails; there is no file of the name of the FIFO yet. -/
def smoothSystem (capacity : ℕ) (stdin : List UInt8) : Lts St Label where
  init s := Init stdin s ∧ s.present = false
  step s a s' := (system capacity stdin).step s a s' ∧ Smooth s a

theorem exec_system {capacity : ℕ} {stdin : List UInt8} {as : List Label} {s : St}
    (h : (smoothSystem capacity stdin).Exec as s) : (system capacity stdin).Exec as s := by
  refine Lts.Exec.invariant (I := fun as s => (system capacity stdin).Exec as s) ?_ ?_ h
  · intro s hs
    exact Lts.Exec.init hs.1
  · intro as s a s' _ ih hs
    exact ih.trans (Lts.Run.single hs.1)

/-- What the client has made of its end. -/
def ClientPc.end : ClientPc → Fifo.End
  | .mkfifo | .open => .idle
  | .returned => .closed
  | _ => .active

/-- What the server has made of its end. -/
def ServerPc.end : ServerPc → Fifo.End
  | .open => .idle
  | .returned | .failed => .closed
  | _ => .active

/-- **What the two processes know of each other** when no call has failed. -/
structure Sound (s : St) : Prop where
  reader : s.fifo.reader = s.server.end
  writer : s.fifo.writer = s.client.end
  present : s.present = true ↔ s.client ≠ .mkfifo
  /-- Past its `open`, the client has met the server. -/
  client : s.client.end = .idle ∨ s.client = .opening ∨ s.server ≠ .open
  /-- Past its `open`, the server has met the client. -/
  server : s.server = .open ∨ s.server = .opening ∨ s.client.end ≠ .idle
  /-- The server stops after the client has. -/
  stopped : s.server = .stat 0 ∨ s.server = .close ∨ s.server = .returned → s.client = .returned
  not_failed : s.server ≠ .failed
  drained : s.client = .close ∨ s.client = .returned → s.stdin = []

/-- **What a step can be when no call fails.** -/
inductive Works (s : St) : Event → St → Prop
  | mkfifo : s.client = .mkfifo → Works s none ({ s with present := true }.clientTo .open)
  | openWrite : s.client = .open →
      Works s (some .openWrite)
        { s.clientTo .opening with fifo := { s.fifo with writer := .active } }
  | openedWrite : s.client = .opening → s.fifo.reader ≠ .idle → Works s none (s.clientTo .gets)
  | gets : s.client = .gets → (gets s.stdin).eof = false →
      Works s none
        ({ s with stdin := (gets s.stdin).rest, line := (gets s.stdin).line }.clientTo .statBefore)
  | eofIn : s.client = .gets → (CText.gets s.stdin).eof = true →
      Works s none ({ s with stdin := [] }.clientTo .close)
  | statBefore : s.client = .statBefore → Works s none (s.clientTo .write)
  | skip : s.client = .write → cstr s.line = [] → Works s none (s.clientTo .statAfter)
  | write : s.client = .write →
      Works s (some (.write (cstr s.line)))
        { s.clientTo .statAfter with fifo := { s.fifo with data := s.fifo.data ++ cstr s.line } }
  | statAfter : s.client = .statAfter → Works s none (s.clientTo .gets)
  | closeWrite : s.client = .close →
      Works s (some .closeWrite)
        { s.clientTo .returned with fifo := { s.fifo with writer := .closed } }
  | openRead : s.server = .open → s.present = true →
      Works s (some .openRead)
        { s.serverTo .opening with fifo := { s.fifo with reader := .active } }
  | openedRead : s.server = .opening → s.fifo.writer ≠ .idle → Works s none (s.serverTo .read)
  | read {bytes rest : List UInt8} : s.server = .read → bytes ≠ [] → s.fifo.data = bytes ++ rest →
      Works s (some (.read bytes))
        { s.serverTo (.stat bytes.length) with fifo := { s.fifo with data := rest } }
  | eof : s.server = .read → s.fifo.writer = .closed → Works s (some .eof) (s.serverTo (.stat 0))
  | again {num : ℕ} : s.server = .stat num → 0 < num → Works s none (s.serverTo .read)
  | stop : s.server = .stat 0 → Works s none (s.serverTo .close)
  | closeRead : s.server = .close →
      Works s (some .closeRead)
        { s.serverTo .returned with fifo := { s.fifo with reader := .closed } }

/-- Between its `open` and its end the client finds the server at the other end. -/
theorem Sound.reader_active {s : St} (h : Sound s) (hopen : s.client.end ≠ .idle)
    (hopening : s.client ≠ .opening) (hret : s.client ≠ .returned) :
    s.fifo.reader = .active := by
  have hserver : s.server ≠ .open := (h.client.resolve_left hopen).resolve_left hopening
  have hend : s.server ≠ .returned := fun hs => hret (h.stopped (Or.inr (Or.inr hs)))
  rw [h.reader]
  cases hs : s.server with
  | «open» => exact absurd hs hserver
  | returned => exact absurd hs hend
  | failed => exact absurd hs h.not_failed
  | opening | read | stat | close => rfl

theorem Sound.use_closeWrite {s : St} (h : Sound s) (hpc : s.client = .close) :
    s.clientEnd = ({ s.clientTo .returned with fifo := { s.fifo with writer := .closed } },
      some .closeWrite) := by
  have hwriter : s.fifo.writer = .active := by rw [h.writer, hpc]; rfl
  have hreader : s.fifo.reader ≠ .idle := by
    rw [h.reader_active (by rw [hpc]; decide) (by rw [hpc]; decide) (by rw [hpc]; decide)]
    decide
  have hperform : (s.clientTo .returned).fifo.perform .closeWrite
      = some { s.fifo with writer := .closed } := by
    change s.fifo.perform .closeWrite = _
    rw [Fifo.perform, if_pos hwriter, Fifo.End.leave_eq hreader]
  simp [St.clientEnd, St.use, hperform]

theorem Sound.use_closeRead {s : St} (h : Sound s) (hpc : s.server = .close) :
    s.serverEnd .returned = ({ s.serverTo .returned with
      fifo := { s.fifo with reader := .closed } }, some .closeRead) := by
  have hreader : s.fifo.reader = .active := by rw [h.reader, hpc]; rfl
  have hwriter : s.fifo.writer ≠ .idle := by
    rw [h.writer, h.stopped (Or.inr (Or.inl hpc))]
    simp [ClientPc.end]
  have hperform : (s.serverTo .returned).fifo.perform .closeRead
      = some { s.fifo with reader := .closed } := by
    change s.fifo.perform .closeRead = _
    rw [Fifo.perform, if_pos hreader, Fifo.End.leave_eq hwriter]
  simp [St.serverEnd, St.use, hperform]

theorem works_of_client {capacity : ℕ} {s s' : St} {e : Event} (hs : Sound s)
    (hpresent : s.client = .mkfifo → s.present = false)
    (h : client capacity s true = some (s', e)) : Works s e s' := by
  cases hpc : s.client with
  | mkfifo =>
      obtain ⟨rfl, rfl⟩ : { s with present := true }.clientTo .open = s' ∧ none = e := by
        simpa [client, hpc, hpresent hpc] using h
      exact .mkfifo hpc
  | «open» =>
      have huse : (s.clientTo .opening).use .openWrite = some (s', e) := by
        simpa [client, hpc] using h
      obtain ⟨f, hf, rfl, rfl⟩ := use_eq huse
      obtain ⟨-, ⟨⟩⟩ := Option.ite_none_right_eq_some.1 hf
      exact .openWrite hpc
  | opening =>
      by_cases hidle : s.fifo.reader = .idle
      · simp [client, hpc, hidle] at h
      · obtain ⟨rfl, rfl⟩ : s.clientTo .gets = s' ∧ none = e := by
          simpa [client, hpc, hidle] using h
        exact .openedWrite hpc hidle
  | gets =>
      cases heof : (gets s.stdin).eof with
      | true =>
          obtain ⟨rfl, rfl⟩ : { s with stdin := [] }.clientTo .close = s' ∧ none = e := by
            simpa [client, hpc, heof] using h
          exact .eofIn hpc heof
      | false =>
          simp only [client, hpc, heof, Bool.false_eq_true, if_false] at h
          obtain ⟨-, heq⟩ := Option.ite_none_right_eq_some.1 h
          obtain ⟨rfl, rfl⟩ := Prod.mk.inj (Option.some.inj heq)
          exact .gets hpc heof
  | statBefore =>
      obtain ⟨rfl, rfl⟩ : s.clientTo .write = s' ∧ none = e := by simpa [client, hpc] using h
      exact .statBefore hpc
  | write =>
      by_cases hempty : cstr s.line = []
      · obtain ⟨rfl, rfl⟩ : s.clientTo .statAfter = s' ∧ none = e := by
          simpa [client, hpc, hempty] using h
        exact .skip hpc hempty
      · -- the server is still there, so the write does not break
        have hactive : s.fifo.reader = .active :=
          hs.reader_active (by rw [hpc]; decide) (by rw [hpc]; decide) (by rw [hpc]; decide)
        simp only [client, hpc, Bool.true_eq_false, if_false, hempty, hactive, ne_eq,
          not_true_eq_false] at h
        obtain ⟨-, huse⟩ := Option.ite_none_right_eq_some.1 h
        obtain ⟨f, hf, rfl, rfl⟩ := use_eq huse
        obtain ⟨-, ⟨⟩⟩ := Option.ite_none_right_eq_some.1 hf
        exact .write hpc
  | statAfter =>
      obtain ⟨rfl, rfl⟩ : s.clientTo .gets = s' ∧ none = e := by simpa [client, hpc] using h
      exact .statAfter hpc
  | close =>
      have hend : s.clientEnd = (s', e) := by simpa [client, hpc] using h
      rw [hs.use_closeWrite hpc] at hend
      obtain ⟨rfl, rfl⟩ := Prod.mk.inj hend
      exact .closeWrite hpc
  | returned => simp [client, hpc] at h

theorem works_of_server {s s' : St} {num : ℕ} {e : Event} (hs : Sound s)
    (hpresent : s.server = .open → s.present = true)
    (h : server s true num = some (s', e)) : Works s e s' := by
  cases hpc : s.server with
  | «open» =>
      have huse : (s.serverTo .opening).use .openRead = some (s', e) := by
        simpa [server, hpc, hpresent hpc] using h
      obtain ⟨f, hf, rfl, rfl⟩ := use_eq huse
      obtain ⟨-, ⟨⟩⟩ := Option.ite_none_right_eq_some.1 hf
      exact .openRead hpc (hpresent hpc)
  | opening =>
      by_cases hidle : s.fifo.writer = .idle
      · simp [server, hpc, hidle] at h
      · obtain ⟨rfl, rfl⟩ : s.serverTo .read = s' ∧ none = e := by
          simpa [server, hpc, hidle] using h
        exact .openedRead hpc hidle
  | read =>
      simp only [server, hpc, Bool.true_eq_false, if_false] at h
      split at h
      · rename_i r hr
        obtain rfl := Option.some.inj h
        obtain ⟨f, hf, rfl, rfl⟩ := use_eq hr
        obtain ⟨⟨-, hclosed, -⟩, ⟨⟩⟩ := Option.ite_none_right_eq_some.1 hf
        exact .eof hpc hclosed
      · obtain ⟨f, hf, rfl, rfl⟩ := use_eq h
        obtain ⟨⟨-, hne, hbytes⟩, ⟨⟩⟩ := Option.ite_none_right_eq_some.1 hf
        have hsplit := List.prefix_iff_eq_append.1 hbytes
        exact .read hpc hne hsplit.symm
  | stat n =>
      obtain ⟨rfl, rfl⟩ : s.serverTo (if 0 < n then .read else .close) = s' ∧ none = e := by
        simpa [server, hpc] using h
      rcases Nat.eq_zero_or_pos n with rfl | hn
      · exact .stop hpc
      · rw [if_pos hn]
        exact .again hpc hn
  | close =>
      have hend : s.serverEnd .returned = (s', e) := by simpa [server, hpc] using h
      rw [hs.use_closeRead hpc] at hend
      obtain ⟨rfl, rfl⟩ := Prod.mk.inj hend
      exact .closeRead hpc
  | returned | failed => simp [server, hpc] at h

/-- The inversion of a step. -/
theorem works_of_step {capacity : ℕ} {stdin : List UInt8} {s s' : St} {a : Label} (hs : Sound s)
    (h : (smoothSystem capacity stdin).step s a s') : Works s a.2 s' := by
  obtain ⟨c, e⟩ := a
  obtain ⟨hstep, hsmooth⟩ := h
  cases c with
  | client ok =>
      obtain ⟨rfl, hpresent⟩ : ok = true ∧ _ := hsmooth
      exact works_of_client hs hpresent hstep
  | server ok num =>
      obtain ⟨rfl, hpresent⟩ : ok = true ∧ _ := hsmooth
      exact works_of_server hs hpresent hstep

/-! ### What the two know of each other -/

/-- A step of the client that leaves its end of the FIFO as it is. -/
theorem Sound.client_moves {s s' : St} (h : Sound s) (hfifo : s'.fifo.reader = s.fifo.reader)
    (hwriter : s'.fifo.writer = s.fifo.writer) (hserver : s'.server = s.server)
    (hpresent : s'.present = s.present) (hend : s'.client.end = s.client.end)
    (hactive : s.client.end = .active) (hmet : s.client ≠ .opening ∨ s.fifo.reader ≠ .idle)
    (hdrained : s'.client = .close → s'.stdin = []) : Sound s' where
  reader := by rw [hfifo, hserver, h.reader]
  writer := by rw [hwriter, hend, h.writer]
  present := by
    have hne : s.client ≠ .mkfifo := fun hpc => by rw [hpc] at hactive; cases hactive
    have hne' : s'.client ≠ .mkfifo := fun hpc => by rw [hpc, hactive] at hend; cases hend
    rw [hpresent, h.present]
    exact iff_of_true hne hne'
  client := by
    refine Or.inr (Or.inr fun hpc => ?_)
    rw [hserver] at hpc
    rcases hmet with hmet | hmet
    · rcases h.client with hidle | hopening | hne
      · rw [hactive] at hidle; cases hidle
      · exact hmet hopening
      · exact hne hpc
    · exact hmet (by rw [h.reader, hpc]; rfl)
  server := by
    rw [hserver, hend]
    exact h.server
  stopped hs := by
    rw [hserver] at hs
    have hret := h.stopped hs
    rw [hret] at hactive
    cases hactive
  not_failed := by rw [hserver]; exact h.not_failed
  drained hpc := by
    rcases hpc with hpc | hpc
    · exact hdrained hpc
    · rw [hpc, hactive] at hend
      cases hend

/-- A step of the server that leaves its end of the FIFO as it is. -/
theorem Sound.server_moves {s s' : St} (h : Sound s) (hfifo : s'.fifo.reader = s.fifo.reader)
    (hwriter : s'.fifo.writer = s.fifo.writer) (hclient : s'.client = s.client)
    (hstdin : s'.stdin = s.stdin) (hpresent : s'.present = s.present)
    (hend : s'.server.end = s.server.end) (hactive : s.server.end = .active)
    (hmet : s.server ≠ .opening ∨ s.fifo.writer ≠ .idle)
    (hstopped : s'.server = .stat 0 ∨ s'.server = .close → s.fifo.writer = .closed) :
    Sound s' where
  reader := by rw [hfifo, hend, h.reader]
  writer := by rw [hwriter, hclient, h.writer]
  present := by rw [hpresent, hclient, h.present]
  client := by
    refine Or.inr (Or.inr fun hpc => ?_)
    rw [hpc, hactive] at hend
    cases hend
  server := by
    refine Or.inr (Or.inr fun hidle => ?_)
    rw [hclient] at hidle
    rcases hmet with hmet | hmet
    · rcases h.server with hopen | hopening | hne
      · rw [hopen] at hactive; cases hactive
      · exact hmet hopening
      · exact hne hidle
    · exact hmet (by rw [h.writer, hidle])
  stopped hs := by
    have hclosed : s.fifo.writer = .closed := by
      rcases hs with hs | hs | hs
      · exact hstopped (Or.inl hs)
      · exact hstopped (Or.inr hs)
      · rw [hs, hactive] at hend
        cases hend
    rw [h.writer] at hclosed
    rw [hclient]
    cases hpc : s.client <;> rw [hpc] at hclosed <;> first | rfl | cases hclosed
  not_failed hpc := by
    rw [hpc, hactive] at hend
    cases hend
  drained := by
    rw [hclient, hstdin]
    exact h.drained

/-- **The step lemma.** -/
theorem Sound.step {s s' : St} {e : Event} (h : Sound s) (hw : Works s e s') : Sound s' := by
  cases hw with
  | mkfifo hpc =>
      refine ⟨h.reader, h.writer.trans (by rw [hpc]; rfl), by simp [St.clientTo],
        Or.inl rfl, ?_,
        fun hs => absurd (h.stopped hs) (by rw [hpc]; decide), h.not_failed, ?_⟩
      · rcases h.server with hopen | hopening | hne
        · exact Or.inl hopen
        · exact Or.inr (Or.inl hopening)
        · exact absurd (by rw [hpc]; rfl) hne
      · rintro (hpc' | hpc') <;> cases hpc'
  | openWrite hpc =>
      refine ⟨h.reader, rfl, by simp [St.clientTo, h.present, hpc], Or.inr (Or.inl rfl),
        Or.inr (Or.inr (by simp [St.clientTo, ClientPc.end])),
        fun hs => absurd (h.stopped hs) (by rw [hpc]; decide), h.not_failed, ?_⟩
      rintro (hpc' | hpc') <;> cases hpc'
  | openedWrite hpc hne =>
      exact h.client_moves rfl rfl rfl rfl (by rw [hpc]; rfl) (by rw [hpc]; rfl) (Or.inr hne)
        fun hpc' => by cases hpc'
  | gets hpc _ | statBefore hpc | skip hpc _ | write hpc | statAfter hpc =>
      exact h.client_moves rfl rfl rfl rfl (by rw [hpc]; rfl) (by rw [hpc]; rfl)
        (Or.inl (by rw [hpc]; decide)) fun hpc' => by cases hpc'
  | eofIn hpc _ =>
      exact h.client_moves rfl rfl rfl rfl (by rw [hpc]; rfl) (by rw [hpc]; rfl)
        (Or.inl (by rw [hpc]; decide)) fun _ => rfl
  | closeWrite hpc =>
      refine ⟨h.reader, rfl, by simp [St.clientTo, h.present, hpc], Or.inr (Or.inr ?_),
        Or.inr (Or.inr (by simp [St.clientTo, ClientPc.end])), fun _ => rfl, h.not_failed,
        fun _ => h.drained (Or.inl hpc)⟩
      rcases h.client with hidle | hopening | hne
      · rw [hpc] at hidle; cases hidle
      · rw [hpc] at hopening; cases hopening
      · exact hne
  | openRead hpc hp =>
      refine ⟨rfl, h.writer, h.present, Or.inr (Or.inr (by simp [St.serverTo])),
        Or.inr (Or.inl rfl), fun hs => ?_, by simp [St.serverTo], h.drained⟩
      simp [St.serverTo] at hs
  | openedRead hpc hne =>
      exact h.server_moves rfl rfl rfl rfl rfl (by rw [hpc]; rfl) (by rw [hpc]; rfl) (Or.inr hne)
        fun hpc' => by rcases hpc' with hpc' | hpc' <;> cases hpc'
  | read hpc hne _ =>
      refine h.server_moves rfl rfl rfl rfl rfl (by rw [hpc]; rfl) (by rw [hpc]; rfl)
        (Or.inl (by rw [hpc]; simp)) fun hpc' => ?_
      simp [St.serverTo, hne] at hpc'
  | eof hpc hclosed =>
      exact h.server_moves rfl rfl rfl rfl rfl (by rw [hpc]; rfl) (by rw [hpc]; rfl)
        (Or.inl (by rw [hpc]; simp)) fun _ => hclosed
  | again hpc _ =>
      exact h.server_moves rfl rfl rfl rfl rfl (by rw [hpc]; rfl) (by rw [hpc]; rfl)
        (Or.inl (by rw [hpc]; simp)) fun hpc' => by rcases hpc' with hpc' | hpc' <;> cases hpc'
  | stop hpc =>
      refine h.server_moves rfl rfl rfl rfl rfl (by rw [hpc]; rfl) (by rw [hpc]; rfl)
        (Or.inl (by rw [hpc]; simp)) fun _ => ?_
      rw [h.writer, h.stopped (Or.inl hpc)]
      rfl
  | closeRead hpc =>
      have hret := h.stopped (Or.inr (Or.inl hpc))
      refine ⟨rfl, h.writer, h.present, Or.inr (Or.inr (by simp [St.serverTo])),
        Or.inr (Or.inr ?_), fun _ => hret, by simp [St.serverTo], h.drained⟩
      simp [St.serverTo, hret, ClientPc.end]

theorem sound {capacity : ℕ} {stdin : List UInt8} {as : List Label} {s : St}
    (h : (smoothSystem capacity stdin).Exec as s) : Sound s := by
  refine Lts.Exec.state_invariant (I := Sound) ?_ ?_ h
  · intro s hs
    obtain ⟨⟨hfifo, -, hclient, hserver⟩, hpresent⟩ := hs
    refine ⟨by rw [hfifo, hserver]; rfl, by rw [hfifo, hclient]; rfl, by simp [hpresent, hclient],
      Or.inl (by rw [hclient]; rfl), Or.inl hserver, ?_, by rw [hserver]; decide, ?_⟩
    · rw [hserver]
      rintro (hs | hs | hs) <;> cases hs
    · rw [hclient]
      rintro (hs | hs) <;> cases hs
  · intro s a s' hs hstep
    exact hs.step (works_of_step hs hstep)

/-! ### What is left to do -/

/-- The steps of the client that are left, before `n` lines. -/
def ClientPc.rank (n : ℕ) : ClientPc → ℕ
  | .mkfifo => 4 * n + 5
  | .open => 4 * n + 4
  | .opening => 4 * n + 3
  | .gets => 4 * n + 2
  | .statBefore => 4 * n + 5
  | .write => 4 * n + 4
  | .statAfter => 4 * n + 3
  | .close => 1
  | .returned => 0

/-- The steps of the server that are left, before `n` bytes. -/
def ServerPc.rank (n : ℕ) : ServerPc → ℕ
  | .open => 2 * n + 5
  | .opening => 2 * n + 4
  | .read => 2 * n + 3
  | .stat 0 => 2
  | .stat (_ + 1) => 2 * n + 4
  | .close => 1
  | .returned | .failed => 0

/-- The steps that are left: the bytes to come are those in the FIFO and those not yet written. -/
def rank (s : St) : ℕ :=
  s.client.rank (lines s.stdin).length + s.server.rank (s.fifo.data ++ pending s).length

theorem text_of_eof {stdin : List UInt8} (h : (gets stdin).eof = true) : text stdin = [] := by
  rw [text, (lines_eq_nil_iff stdin).2 h, List.flatMap_nil]

theorem text_nil : text [] = [] := text_of_eof rfl

/-- **What is written is taken from what was pending**, and nothing is dropped. -/
theorem Works.pending {s s' : St} {e : Event} (hs : Sound s) (h : Works s e s') :
    e.toList.flatMap Fifo.Op.input ++ pending s' = pending s := by
  cases h with
  | mkfifo hpc | openedWrite hpc _ | statBefore hpc | statAfter hpc =>
      simp [FifoSession.pending, St.clientTo, hpc]
  | openWrite hpc => simp [FifoSession.pending, St.clientTo, hpc, Fifo.Op.input]
  | gets hpc heof => simp [FifoSession.pending, St.clientTo, hpc, text_of_gets heof]
  | eofIn hpc heof =>
      simp [FifoSession.pending, St.clientTo, hpc, text_of_eof heof, text_nil]
  | skip hpc hempty => simp [FifoSession.pending, St.clientTo, hpc, hempty]
  | write hpc => simp [FifoSession.pending, St.clientTo, hpc, Fifo.Op.input]
  | closeWrite hpc =>
      simp [FifoSession.pending, St.clientTo, hpc, Fifo.Op.input, hs.drained (Or.inl hpc), text_nil]
  | openRead | openedRead | read | eof | again | stop | closeRead => rfl

/-- A step of the client: the bytes to come are the same, wherever they are. -/
theorem rank_lt_of_client {s s' : St} (hserver : s'.server = s.server)
    (hbytes : s'.fifo.data ++ pending s' = s.fifo.data ++ pending s)
    (hlt : s'.client.rank (lines s'.stdin).length < s.client.rank (lines s.stdin).length) :
    rank s' < rank s := by
  simp only [rank, hserver, hbytes]
  omega

/-- A step of the server. -/
theorem rank_lt_of_server {s s' : St} (hclient : s'.client = s.client)
    (hstdin : s'.stdin = s.stdin)
    (hlt : s'.server.rank (s'.fifo.data ++ pending s').length
      < s.server.rank (s.fifo.data ++ pending s).length) : rank s' < rank s := by
  simp only [rank, hclient, hstdin]
  omega

/-- **A step leaves less to do.** -/
theorem Works.rank_lt {s s' : St} {e : Event} (hs : Sound s) (h : Works s e s') :
    rank s' < rank s := by
  have hpending := h.pending hs
  cases h with
  | mkfifo hpc | openWrite hpc | openedWrite hpc _ | statBefore hpc | statAfter hpc | skip hpc _ =>
      refine rank_lt_of_client rfl (congrArg (s.fifo.data ++ ·) hpending) ?_
      rw [hpc]
      simp [St.clientTo, ClientPc.rank]
  | gets hpc heof =>
      refine rank_lt_of_client rfl (congrArg (s.fifo.data ++ ·) hpending) ?_
      rw [hpc, lines_of_not_eof heof]
      simp only [St.clientTo, ClientPc.rank, List.length_cons]
      omega
  | eofIn hpc _ =>
      refine rank_lt_of_client rfl (congrArg (s.fifo.data ++ ·) hpending) ?_
      rw [hpc]
      simp only [St.clientTo, ClientPc.rank]
      omega
  | write hpc =>
      refine rank_lt_of_client rfl ?_ ?_
      · rw [← hpending]
        simp [Fifo.Op.input]
      · rw [hpc]
        simp [St.clientTo, ClientPc.rank]
  | closeWrite hpc =>
      refine rank_lt_of_client rfl (congrArg (s.fifo.data ++ ·) hpending) ?_
      rw [hpc]
      simp [St.clientTo, ClientPc.rank]
  | openRead hpc _ | openedRead hpc _ | closeRead hpc =>
      refine rank_lt_of_server rfl rfl ?_
      rw [hpc]
      simp [St.serverTo, FifoSession.pending, ServerPc.rank]
  | eof hpc _ | stop hpc =>
      refine rank_lt_of_server rfl rfl ?_
      rw [hpc]
      simp only [St.serverTo, ServerPc.rank]
      omega
  | @read bytes rest hpc hne hdata =>
      -- at least one byte is taken, which pays for the `fstat` after the read
      refine rank_lt_of_server rfl rfl ?_
      obtain ⟨num, hnum⟩ := Nat.exists_eq_succ_of_ne_zero (List.length_pos_iff.2 hne).ne'
      rw [hpc, hdata, hnum]
      simp only [St.serverTo, FifoSession.pending, ServerPc.rank, List.length_append]
      omega
  | @again num hpc hpos =>
      obtain ⟨k, rfl⟩ := Nat.exists_eq_succ_of_ne_zero hpos.ne'
      refine rank_lt_of_server rfl rfl ?_
      rw [hpc]
      simp only [St.serverTo, FifoSession.pending, ServerPc.rank]
      omega

theorem pays (capacity : ℕ) (stdin : List UInt8) :
    (smoothSystem capacity stdin).Pays rank fun _ => 0 := by
  intro as s a s' hr hs
  exact (works_of_step (sound hr) hs).rank_lt (sound hr)

/-! ### Neither process waits for a process that waits -/

/-- The line under way and the lines to come fit into the array of the client. -/
structure Roomy (s : St) : Prop where
  line : s.client = .statBefore ∨ s.client = .write → s.line.length < 300
  lines : ∀ l ∈ lines s.stdin, l.length < 300

theorem Roomy.step {s s' : St} {e : Event} (h : Roomy s) (hw : Works s e s') : Roomy s' := by
  cases hw with
  | gets hpc heof =>
      refine ⟨fun _ => h.lines _ ?_, fun l hl => h.lines l ?_⟩
      · rw [lines_of_not_eof heof]
        exact List.mem_cons_self
      · rw [lines_of_not_eof heof]
        exact List.mem_cons_of_mem _ hl
  | eofIn hpc _ => exact ⟨fun hpc' => by simp [St.clientTo] at hpc', fun l hl => by cases hl⟩
  | statBefore hpc => exact ⟨fun _ => h.line (Or.inl hpc), h.lines⟩
  | mkfifo | openWrite | openedWrite | skip | write | statAfter | closeWrite =>
      exact ⟨fun hpc' => by simp [St.clientTo] at hpc', h.lines⟩
  | openRead | openedRead | read | eof | again | stop | closeRead => exact ⟨h.line, h.lines⟩

theorem roomy {capacity : ℕ} {stdin : List UInt8}
    (hshort : ∀ l ∈ allLines stdin, l.length < 300)
    {as : List Label} {s : St} (h : (smoothSystem capacity stdin).Exec as s) : Roomy s := by
  refine Lts.Exec.invariant (I := fun _ s => Roomy s) ?_ ?_ h
  · intro s hs
    refine ⟨fun hpc => ?_, fun l hl => ?_⟩
    · rw [hs.1.client] at hpc
      rcases hpc with hpc | hpc <;> cases hpc
    · rw [hs.1.stdin] at hl
      exact hshort l (List.mem_append_left _ hl)
  · intro as s a s' hr ih hstep
    exact ih.step (works_of_step (sound hr) hstep)

/-- The client can make its next step, or it waits for the server or is through. -/
theorem client_step_or (capacity : ℕ) (stdin : List UInt8) {s : St} (hs : Sound s)
    (hr : Roomy s) : (∃ a s', (smoothSystem capacity stdin).step s a s') ∨
      s.client = .opening ∧ s.fifo.reader = .idle ∨
      s.client = .write ∧ capacity < s.fifo.data.length + s.line.length ∨
      s.client = .returned := by
  have hstep : (s.client = .mkfifo → s.present = false) → ∀ r, client capacity s true = some r →
      ∃ a s', (smoothSystem capacity stdin).step s a s' := fun hp r hr =>
    ⟨(.client true, r.2), r.1, hr, rfl, hp⟩
  cases hpc : s.client with
  | mkfifo =>
      have habsent : s.present = false := by
        cases hp : s.present with
        | false => rfl
        | true => exact absurd hpc (hs.present.1 hp)
      exact Or.inl (hstep (fun _ => habsent) _ (by simp only [client, hpc, habsent]; rfl))
  | «open» =>
      have hidle : s.fifo.writer = .idle := by rw [hs.writer, hpc]; rfl
      refine Or.inl (hstep (by simp [hpc]) ({ s.clientTo .opening with
        fifo := { s.fifo with writer := .active } }, some .openWrite) ?_)
      simp [client, hpc, St.use, St.clientTo, Fifo.perform_openWrite hidle]
  | opening =>
      by_cases hidle : s.fifo.reader = .idle
      · exact Or.inr (Or.inl ⟨rfl, hidle⟩)
      · exact Or.inl (hstep (by simp [hpc]) (s.clientTo .gets, none)
          (by simp [client, hpc, hidle]))
  | gets =>
      cases heof : (CText.gets s.stdin).eof with
      | true =>
          exact Or.inl (hstep (by simp [hpc]) ({ s with stdin := [] }.clientTo .close, none)
            (by simp [client, hpc, heof]))
      | false =>
          have hmem : (CText.gets s.stdin).line ∈ CText.lines s.stdin := by
            rw [lines_of_not_eof heof]
            exact List.mem_cons_self
          let got := CText.gets s.stdin
          refine Or.inl (hstep (by simp [hpc])
            ({ s with stdin := got.rest, line := got.line }.clientTo .statBefore, none) ?_)
          simp [client, hpc, heof, hr.lines _ hmem, got]
  | statBefore =>
      exact Or.inl (hstep (by simp [hpc]) (s.clientTo .write, none) (by simp [client, hpc]))
  | write =>
      by_cases hempty : cstr s.line = []
      · exact Or.inl (hstep (by simp [hpc]) (s.clientTo .statAfter, none)
          (by simp [client, hpc, hempty]))
      · have hreader : s.fifo.reader = .active :=
          hs.reader_active (by rw [hpc]; decide) (by rw [hpc]; decide) (by rw [hpc]; decide)
        have hwriter : s.fifo.writer = .active := by rw [hs.writer, hpc]; rfl
        by_cases hroom : s.fifo.data.length + (cstr s.line).length ≤ capacity
        · refine Or.inl (hstep (by simp [hpc]) ({ s.clientTo .statAfter with
            fifo := { s.fifo with data := s.fifo.data ++ cstr s.line } },
              some (.write (cstr s.line))) ?_)
          simp [client, hpc, hempty, hreader, hroom, St.use, St.clientTo,
            Fifo.perform_write hwriter hreader]
        · have hle := cstr_length_le s.line
          exact Or.inr (Or.inr (Or.inl ⟨rfl, by omega⟩))
  | statAfter =>
      exact Or.inl (hstep (by simp [hpc]) (s.clientTo .gets, none) (by simp [client, hpc]))
  | close => exact Or.inl (hstep (by simp [hpc]) s.clientEnd (by simp [client, hpc]))
  | returned => exact Or.inr (Or.inr (Or.inr rfl))

/-- The server can make its next step, or it waits for the client or is through. -/
theorem server_step_or (capacity : ℕ) (stdin : List UInt8) {s : St} (hs : Sound s) :
    (∃ a s', (smoothSystem capacity stdin).step s a s') ∨
      s.server = .open ∧ s.client = .mkfifo ∨ s.server = .opening ∧ s.fifo.writer = .idle ∨
      s.server = .read ∧ s.fifo.data = [] ∧ s.fifo.writer ≠ .closed ∨
      s.server = .returned := by
  have hstep : (s.server = .open → s.present = true) → ∀ num r, server s true num = some r →
      ∃ a s', (smoothSystem capacity stdin).step s a s' := fun hp num r hr =>
    ⟨(.server true num, r.2), r.1, hr, rfl, hp⟩
  cases hpc : s.server with
  | «open» =>
      by_cases hmk : s.client = .mkfifo
      · exact Or.inr (Or.inl ⟨rfl, hmk⟩)
      · have hp : s.present = true := hs.present.2 hmk
        have hidle : s.fifo.reader = .idle := by rw [hs.reader, hpc]; rfl
        refine Or.inl (hstep (fun _ => hp) 0 ({ s.serverTo .opening with
          fifo := { s.fifo with reader := .active } }, some .openRead) ?_)
        simp [server, hpc, hp, St.use, St.serverTo, Fifo.perform_openRead hidle]
  | opening =>
      by_cases hidle : s.fifo.writer = .idle
      · exact Or.inr (Or.inr (Or.inl ⟨rfl, hidle⟩))
      · exact Or.inl (hstep (by simp [hpc]) 0 (s.serverTo .read, none)
          (by simp [server, hpc, hidle]))
  | read =>
      have hreader : s.fifo.reader = .active := by rw [hs.reader, hpc]; rfl
      by_cases hdata : s.fifo.data = []
      · by_cases hclosed : s.fifo.writer = .closed
        · refine Or.inl (hstep (by simp [hpc]) 0 (s.serverTo (.stat 0), some .eof) ?_)
          simp [server, hpc, St.use, St.serverTo, Fifo.perform, hreader, hclosed, hdata]
        · exact Or.inr (Or.inr (Or.inr (Or.inl ⟨rfl, hdata, hclosed⟩)))
      · -- one byte can always be taken
        have hne : s.fifo.data.take 1 ≠ [] := by
          intro hnil
          rcases List.take_eq_nil_iff.1 hnil with hone | hnil
          · cases hone
          · exact hdata hnil
        have hread := Fifo.perform_read hreader hne (List.take_prefix 1 s.fifo.data)
        have heof : (s.serverTo (.stat 0)).use .eof = none := by
          simp [St.use, St.serverTo, Fifo.perform_eof_of_ne hdata]
        refine Or.inl (hstep (by simp [hpc]) 1 ({ s.serverTo (.stat (s.fifo.data.take 1).length)
          with fifo := { s.fifo with data := s.fifo.data.drop (s.fifo.data.take 1).length } },
            some (.read (s.fifo.data.take 1))) ?_)
        have hmin : min 1 300 = 1 := rfl
        simp only [server, hpc, Bool.true_eq_false, if_false, heof, hmin]
        simp only [St.use, St.serverTo, hread, Option.map_some]
  | stat num =>
      exact Or.inl (hstep (by simp [hpc]) 0
        (s.serverTo (if 0 < num then .read else .close), none) (by simp [server, hpc]))
  | close =>
      exact Or.inl (hstep (by simp [hpc]) 0 (s.serverEnd .returned) (by simp [server, hpc]))
  | returned => exact Or.inr (Or.inr (Or.inr (Or.inr rfl)))
  | failed => exact absurd hpc hs.not_failed

/-- **The two processes never wait for each other**: with room for a line in the FIFO some step is
possible as long as not both have returned. -/
theorem exists_step {capacity : ℕ} (hcap : 300 ≤ capacity) {stdin : List UInt8} {s : St}
    (hs : Sound s) (hr : Roomy s) (hnot : ¬ (s.client = .returned ∧ s.server = .returned)) :
    ∃ a s', (smoothSystem capacity stdin).step s a s' := by
  rcases client_step_or capacity stdin hs hr with
    hstep | ⟨hc, hidle⟩ | ⟨hc, hfull⟩ | hc
  · exact hstep
  all_goals
    rcases server_step_or capacity stdin hs with
      hstep | ⟨hv, hmk⟩ | ⟨hv, hidle'⟩ | ⟨hv, hdata, hclosed⟩ | hv
    · exact hstep
  · rw [hc] at hmk; cases hmk
  · rw [hs.writer, hc] at hidle'; cases hidle'
  · rw [hs.reader, hv] at hidle; cases hidle
  · rw [hs.reader, hv] at hidle; cases hidle
  · rw [hc] at hmk; cases hmk
  · rw [hs.writer, hc] at hidle'; cases hidle'
  · -- an empty FIFO has room for a line
    have hline := hr.line (Or.inr hc)
    rw [hdata, List.length_nil] at hfull
    omega
  · have hret := hs.stopped (Or.inr (Or.inr hv))
    rw [hc] at hret
    cases hret
  · rw [hc] at hmk; cases hmk
  · rw [hs.writer, hc] at hidle'; cases hidle'
  · exact absurd (by rw [hs.writer, hc]; rfl) hclosed
  · exact absurd ⟨hc, hv⟩ hnot

/-! ### The end of the session -/

/-- **The end of a session**: both programs have returned, and the lines of the input, each up to
its newline, have been written and printed. -/
structure Complete (stdin : List UInt8) (as : List Label) (s : St) : Prop where
  client : s.client = .returned
  server : s.server = .returned
  wrote : wrote as = text stdin
  printed : printed as = text stdin

/-- Nothing of the input is dropped. -/
theorem wrote_append_pending {capacity : ℕ} {stdin : List UInt8} {as : List Label} {s : St}
    (h : (smoothSystem capacity stdin).Exec as s) : wrote as ++ pending s = text stdin := by
  refine Lts.Exec.invariant (I := fun as s => wrote as ++ pending s = text stdin) ?_ ?_ h
  · intro s hs
    simp [FifoSession.wrote, ops, Fifo.written, pending, hs.1.client, hs.1.stdin]
  · rintro as s ⟨c, e⟩ s' hr ih hs
    have hsnoc : FifoSession.wrote (as ++ [(c, e)])
        = FifoSession.wrote as ++ e.toList.flatMap Fifo.Op.input := by
      rw [FifoSession.wrote, ops_snoc, Fifo.written, List.flatMap_append]
      rfl
    have hpending : e.toList.flatMap Fifo.Op.input ++ pending s' = pending s :=
      (works_of_step (sound hr) hs).pending (sound hr)
    rw [hsnoc, List.append_assoc, hpending, ih]

theorem complete_of_returned {capacity : ℕ} {stdin : List UInt8} {as : List Label} {s : St}
    (h : (smoothSystem capacity stdin).Exec as s) (hc : s.client = .returned)
    (hv : s.server = .returned) : Complete stdin as s := by
  have hsys := exec_system h
  have hwrote := wrote_append_pending h
  have hnone : pending s = [] := by simp [pending, hc]
  rw [hnone, List.append_nil] at hwrote
  -- the loop of the server has stopped at the end of the file, so nothing is under way
  obtain ⟨-, hdata⟩ := Fifo.ended (exec_fifo hsys) (eof_of_stopped hsys (Or.inr hv))
  have hdelivered : FifoSession.wrote as = Fifo.received (ops as) ++ s.fifo.data :=
    Fifo.delivered (exec_fifo hsys)
  rw [hdata, List.append_nil] at hdelivered
  exact ⟨hc, hv, hwrote, by rw [printed_eq hsys, ← hdelivered, hwrote]⟩

/-- **Every run in which no call fails is bounded and ends with the whole input printed.**  With
room for a line in the FIFO and lines that fit the array of the client, the last one too, and if the
array of the server is large enough for its reads, behind which nothing is stored here: the number
of steps of a run is bounded by the input; no step is possible only when both programs have
returned, with every line printed; every run can be continued to that point; and when all lines
together are shorter than 100 bytes no read overruns the array of the server. -/
theorem session_completes {capacity : ℕ} (hcap : 300 ≤ capacity) {stdin : List UInt8}
    (hshort : ∀ l ∈ allLines stdin, l.length < 300) {as : List Label} {s : St}
    (h : (smoothSystem capacity stdin).Exec as s) :
    as.length ≤ 4 * (lines stdin).length + 2 * (text stdin).length + 10 ∧
      ((smoothSystem capacity stdin).Terminal s → Complete stdin as s) ∧
      (∃ bs s', (smoothSystem capacity stdin).Run s bs s' ∧ Complete stdin (as ++ bs) s') ∧
      ((text stdin).length < 100 → ∀ a ∈ as, InBounds a) := by
  have hend : ∀ {as : List Label} {s : St}, (smoothSystem capacity stdin).Exec as s →
      (smoothSystem capacity stdin).Terminal s → Complete stdin as s := by
    intro as s hr hterminal
    by_cases hret : s.client = .returned ∧ s.server = .returned
    · exact complete_of_returned hr hret.1 hret.2
    · obtain ⟨a, s', hs⟩ : ∃ a s', (smoothSystem capacity stdin).step s a s' :=
        exists_step hcap (sound hr) (roomy hshort hr) hret
      exact absurd hs (hterminal a s')
  refine ⟨?_, hend h, ?_, fun hlt a ha bytes hread => ?_⟩
  · have hle := (pays capacity stdin).length_le (n := 4 * (lines stdin).length
      + 2 * (text stdin).length + 10) (fun s hs => ?_) h
    · simpa using (Nat.le_add_right _ _).trans hle
    · obtain ⟨⟨hfifo, hstdin, hclient, hserver⟩, -⟩ := hs
      simp only [rank, pending, hfifo, hstdin, hclient, hserver, Fifo.unused, ClientPc.rank,
        ServerPc.rank, List.nil_append]
      omega
  · obtain ⟨bs, s', hrun, hterminal⟩ := (pays capacity stdin).exists_terminal h
    exact ⟨bs, s', hrun, hend (h.trans hrun) hterminal⟩
  · have hle := length_le_of_read (exec_system h) ha hread
    omega

/-- The session of a line "hi" is over after 18 steps at most. -/
theorem session_completes_hi :
    ∃ s, (smoothSystem 300 [104, 105, 10]).Exec [] s ∧ ∃ bs s',
      (smoothSystem 300 [104, 105, 10]).Run s bs s' ∧ Complete [104, 105, 10] ([] ++ bs) s' := by
  have hinit : (smoothSystem 300 [104, 105, 10]).init
      ⟨false, Fifo.unused, [104, 105, 10], [], .mkfifo, .open⟩ := ⟨⟨rfl, rfl, rfl, rfl⟩, rfl⟩
  have hshort : ∀ l ∈ allLines [104, 105, 10], l.length < 300 := by decide
  have h := session_completes (le_refl 300) hshort (Lts.Exec.init hinit)
  exact ⟨_, Lts.Exec.init hinit, h.2.2.1⟩

end FifoSession
