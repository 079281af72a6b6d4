/-
**When process 5 uses a group id that it has not received**
(`assignment_7/change_process_group.c`).

Process 5 reads the group id into a local variable that is not initialised.  A short read ends the
process, a failing one is only reported.  So when the read does not fail, process 5 comes to its
`setpgid` with the id that process 3 has written, and when it fails with whatever the variable held.

Here every call of the two processes may fail or be short.

Main definitions:

* `GroupHandover.Step3`, `GroupHandover.Step5` — what a step of the two processes can do;
* `GroupHandover.Received` — what holds in all runs in which the read does not fail;
* `GroupHandover.reading` — these runs;
* `GroupHandover.ReadFirst` — the id is not used before it is read.

Main results:

* `GroupHandover.Received.process3`, `GroupHandover.Received.process5` — the steps keep what holds;
* `GroupHandover.received`, `GroupHandover.readFirst` — **what process 5 uses it has received**;
* `GroupHandover.not_readFirst` — after a read that fails it goes on nevertheless.
-/

import AupPrograms.GroupHandover

set_option relaxedAutoImplicit false
set_option autoImplicit false

namespace GroupHandover

open Syscall (Outcome)

/-! ### What a step can do -/

section

variable {P : Pids} {s s' : St}

theorem setpgid_eq_some {p : Member} {pgid : ℤ} {r : Outcome} (h : setpgid P s p pgid r = some s') :
    s' = s.join p (if pgid = 0 then P.pid p else pgid) := by
  unfold setpgid at h
  split at h
  · exact (Option.some.inj h).symm
  · cases h

/-- A call of `setpgid` whose failure is ignored. -/
theorem setpgid_getD (p : Member) (pgid : ℤ) (r : Outcome) :
    ∃ g, (setpgid P s p pgid r).getD s = s.join p g := by
  cases hset : setpgid P s p pgid r with
  | some s' => exact ⟨_, setpgid_eq_some hset⟩
  | none => exact ⟨s.pgid p, by simp [St.join]⟩

/-- **What a step of process 3 can do**, whatever its calls do. -/
inductive Step3 (P : Pids) (s : St) : Option Event → St → Prop
  | setpgidSelf : s.pc3 = .setpgidSelf → Step3 P s (some (.setpgid .three .three 0))
      ((s.join .three (P.pid .three)).goto3 .setpgidChild)
  | setpgidChild (g : ℤ) : s.pc3 = .setpgidChild →
      Step3 P s (some (.setpgid .three .four (s.pgid .three))) ((s.join .four g).goto3 .access)
  | access (pc : Pc3) : s.pc3 = .access → Step3 P s none (s.goto3 pc)
  | mkfifo : s.pc3 = .mkfifo → Step3 P s none (s.create.goto3 .creat)
  | creat {f : Fifo UInt8} : s.pc3 = .creat → s.fifo.perform .openWrite = some f →
      Step3 P s none ((s.pipe f).goto3 .opening)
  | opened : s.pc3 = .opening → Step3 P s none (s.goto3 .write)
  | write {bytes : List UInt8} {f : Fifo UInt8} : s.pc3 = .write →
      bytes <+: CInt.bytes 8 (s.pgid .three) → s.fifo.perform (.write bytes) = some f →
      Step3 P s (some (.write bytes)) ((s.pipe f).goto3 .close)
  | writeShort {bytes : List UInt8} {f : Fifo UInt8} : s.pc3 = .write →
      bytes <+: CInt.bytes 8 (s.pgid .three) → s.fifo.perform (.write bytes) = some f →
      Step3 P s (some (.write bytes)) (s.pipe f).exit3
  | close : s.pc3 = .close → Step3 P s none ((s.pipe s.fifo.hangUpWrite).goto3 .after)
  /-- A failing `setpgid`. -/
  | refused : s.pc3 = .setpgidSelf → Step3 P s (some (.setpgid .three .three 0)) s.exit3
  | exit : Step3 P s none s.exit3

theorem step3_of_process3 {r : Outcome} {e : Option Event} (h : process3 P s r = some (s', e)) :
    Step3 P s e s' := by
  unfold process3 at h
  cases hpc : s.pc3 with
  | setpgidSelf =>
      rw [hpc] at h
      dsimp only at h
      cases hset : setpgid P s .three 0 r with
      | none =>
          rw [hset] at h
          cases h
          exact .refused hpc
      | some s₁ =>
          rw [hset] at h
          obtain rfl := setpgid_eq_some hset
          cases h
          exact .setpgidSelf hpc
  | setpgidChild =>
      rw [hpc] at h
      dsimp only at h
      obtain ⟨g, hg⟩ := setpgid_getD (P := P) (s := s) .four (s.pgid .three) r
      rw [hg] at h
      cases h
      exact .setpgidChild g hpc
  | access =>
      rw [hpc] at h
      cases h
      exact .access _ hpc
  | mkfifo =>
      rw [hpc] at h
      dsimp only at h
      split at h
      · cases h
        exact .mkfifo hpc
      · cases h
        exact .exit
  | creat =>
      rw [hpc] at h
      dsimp only at h
      split at h
      · split at h
        · obtain ⟨f, hf, heq⟩ := Option.map_eq_some_iff.1 h
          cases heq
          exact .creat hpc hf
        · cases h
      · cases h
        exact .exit
  | opening =>
      rw [hpc] at h
      dsimp only at h
      split at h
      · split at h
        · cases h
        · cases h
          exact .exit
      · cases h
        exact .opened hpc
  | write =>
      rw [hpc] at h
      dsimp only at h
      split at h
      · cases h
        exact .exit
      · have hbytes := List.take_prefix (r.limit 8) (CInt.bytes 8 (s.pgid .three))
        cases hf : s.fifo.perform (.write ((CInt.bytes 8 (s.pgid .three)).take (r.limit 8))) with
        | none =>
            rw [hf] at h
            cases h
            exact .exit
        | some f =>
            rw [hf] at h
            obtain ⟨rfl, rfl⟩ := Prod.mk.inj (Option.some.inj h)
            split
            · exact .writeShort hpc hbytes hf
            · exact .write hpc hbytes hf
  | close =>
      rw [hpc] at h
      obtain ⟨rfl, rfl⟩ := Prod.mk.inj (Option.some.inj h)
      split
      · exact .close hpc
      · exact .exit
  | after =>
      rw [hpc] at h
      cases h
      exact .exit
  | ended =>
      rw [hpc] at h
      cases h

/-- **What a step of process 5 can do**, by how its call ends. -/
inductive Step5 (s : St) : Outcome → Option Event → St → Prop
  | poll (r : Outcome) : s.pc5 = .open → Step5 s r none s
  | openRead (r : Outcome) {f : Fifo UInt8} : s.pc5 = .open → s.fifo.perform .openRead = some f →
      Step5 s r none ((s.pipe f).goto5 .opening)
  | interrupted (r : Outcome) : s.pc5 = .opening →
      Step5 s r none ((s.pipe s.fifo.hangUpRead).goto5 .open)
  | opened (r : Outcome) : s.pc5 = .opening → Step5 s r none (s.goto5 .read)
  | readFails : s.pc5 = .read → Step5 s .fail (some (.read (-1))) (s.goto5 .setpgid)
  | eof (r : Outcome) : s.pc5 = .read → Step5 s r (some (.read 0)) s.exit5
  | readShort (r : Outcome) {bytes : List UInt8} {f : Fifo UInt8} : s.pc5 = .read →
      s.fifo.perform (.read bytes) = some f → bytes.length < 8 →
      Step5 s r (some (.read bytes.length)) ((s.pipe f).store bytes).exit5
  | read (r : Outcome) {bytes : List UInt8} {f : Fifo UInt8} : s.pc5 = .read →
      s.fifo.perform (.read bytes) = some f → ¬ bytes.length < 8 →
      Step5 s r (some (.read bytes.length)) (((s.pipe f).store bytes).goto5 .setpgid)
  | setpgid (r : Outcome) (pgid g : ℤ) : s.pc5 = .setpgid →
      Step5 s r (some (.setpgid .five .five pgid)) ((s.join .five g).goto5 .after)
  /-- A failing `setpgid`. -/
  | refused (r : Outcome) (pgid : ℤ) : s.pc5 = .setpgid →
      Step5 s r (some (.setpgid .five .five pgid)) s.exit5
  | done (r : Outcome) : s.pc5 = .after → Step5 s r none s.exit5

theorem step5_of_process5 {r : Outcome} {e : Option Event} (h : process5 P s r = some (s', e)) :
    Step5 s r e s' := by
  unfold process5 at h
  cases hpc : s.pc5 with
  | «open» =>
      rw [hpc] at h
      dsimp only at h
      split at h
      · obtain ⟨f, hf, heq⟩ := Option.map_eq_some_iff.1 h
        cases heq
        exact .openRead r hpc hf
      · cases h
        exact .poll r hpc
  | opening =>
      rw [hpc] at h
      dsimp only at h
      split at h
      · split at h
        · cases h
        · cases h
          exact .interrupted r hpc
      · cases h
        exact .opened r hpc
  | read =>
      rw [hpc] at h
      dsimp only at h
      split at h
      · subst r
        cases h
        exact .readFails hpc
      · split at h
        · cases h
          exact .eof r hpc
        · obtain ⟨f, hf, heq⟩ := Option.map_eq_some_iff.1 h
          obtain ⟨rfl, rfl⟩ := Prod.mk.inj heq
          split
          · exact .readShort r hpc hf ‹_›
          · exact .read r hpc hf ‹_›
  | setpgid =>
      rw [hpc] at h
      dsimp only at h
      cases hset : setpgid P s .five (CInt.wrap 4 (CInt.ofBytes s.pgid_3)) r with
      | none =>
          rw [hset] at h
          cases h
          exact .refused r _ hpc
      | some s₁ =>
          rw [hset] at h
          obtain rfl := setpgid_eq_some hset
          cases h
          exact .setpgid r _ _ hpc
  | after =>
      rw [hpc] at h
      cases h
      exact .done r hpc
  | ended =>
      rw [hpc] at h
      cases h

end

/-! ### What process 5 has received -/

/-- **What holds when the read of process 5 does not fail**: `got` that it has returned eight bytes,
`wrote` that process 3 has written the whole id. -/
structure Received (P : Pids) (got wrote : Prop) (s : St) : Prop where
  /-- Process 3 leads its group as long as it can still write. -/
  leader : 0 < s.pc3.place → s.pc3.place < 7 → s.pgid .three = P.pid .three
  unsent : s.pc3.place < 7 → s.fifo.data = []
  /-- A short write leaves a part of the id in the FIFO. -/
  arriving : s.pc5.place < 3 → s.fifo.data <+: message P
  full : s.pc5.place < 3 → s.fifo.data = message P → wrote
  size : s.pc5.place < 3 → s.pgid_3.length = 8
  received : 2 < s.pc5.place → s.pc5.place < 5 → s.pgid_3 = message P ∧ got ∧ wrote

theorem received_of_init {P : Pids} {s : St} (h : Init P s) (got wrote : Prop) :
    Received P got wrote s := by
  have hdata : s.fifo.data = [] := by rw [h.fifo]; rfl
  have h₅ : s.pc5.place = 0 := by rw [h.pc5]; rfl
  constructor
  case leader =>
    intro hlt _
    rw [h.pc3] at hlt
    exact absurd hlt (by decide)
  case unsent => exact fun _ => hdata
  case arriving => exact fun _ => hdata ▸ List.nil_prefix
  case full => exact fun _ hfull => absurd (hfull.symm.trans hdata) (message_ne_nil P)
  case size => exact fun _ => h.pgid_3
  case received => exact fun hlt _ => absurd hlt (by omega)

section

variable {P : Pids} {got wrote : Prop} {s s' : St}

/-- What has happened has happened. -/
theorem Received.mono (hi : Received P got wrote s) {got' wrote' : Prop} (hg : got → got')
    (hw : wrote → wrote') : Received P got' wrote' s :=
  { hi with
    full := fun h hfull => hw (hi.full h hfull)
    received := fun h h' => (hi.received h h').imp_right (And.imp hg hw) }

/-- **A step that transfers nothing**: process 3 does not come before its write again, and process 5
not past its read. -/
theorem Received.of_silent (hi : Received P got wrote s) (hdata : s'.fifo.data = s.fifo.data)
    (hlocal : s'.pgid_3 = s.pgid_3)
    (h₃ : s'.pc3.place < 7 → s.pc3.place < 7 ∧
      (0 < s'.pc3.place → 0 < s.pc3.place ∧ s'.pgid .three = s.pgid .three ∨
        s'.pgid .three = P.pid .three))
    (h₅ : s'.pc5.place < 3 → s.pc5.place < 3)
    (hread : 2 < s'.pc5.place → s'.pc5.place < 5 → 2 < s.pc5.place ∧ s.pc5.place < 5) :
    Received P got wrote s' where
  leader hpos hlt := by
    obtain ⟨hlt', hlead⟩ := h₃ hlt
    rcases hlead hpos with ⟨hpos', heq⟩ | heq
    · rw [heq]
      exact hi.leader hpos' hlt'
    · exact heq
  unsent hlt := hdata.trans (hi.unsent (h₃ hlt).1)
  arriving hlt := hdata ▸ hi.arriving (h₅ hlt)
  full hlt hfull := hi.full (h₅ hlt) (hdata ▸ hfull)
  size hlt := hlocal ▸ hi.size (h₅ hlt)
  received hlt hlt' := by
    obtain ⟨hpast, hopen⟩ := hread hlt hlt'
    rw [hlocal]
    exact hi.received hpast hopen

/-- Process 3 may end at any time. -/
theorem Received.exit3 (hi : Received P got wrote s) : Received P got wrote s.exit3 := by
  refine hi.of_silent (Fifo.hangUpWrite_data _) rfl ?_ (fun h => h) fun h h' => ⟨h, h'⟩
  intro hlt
  exact absurd hlt (by simp [St.exit3])

/-- Process 5 may end at any time. -/
theorem Received.exit5 (hi : Received P got wrote s) : Received P got wrote s.exit5 := by
  refine hi.of_silent (Fifo.hangUpRead_data _) rfl ?_ ?_ ?_
  · intro hlt
    exact ⟨hlt, fun hpos => Or.inl ⟨hpos, rfl⟩⟩
  · intro hlt
    exact absurd hlt (by simp [St.exit5])
  · intro _ hlt
    exact absurd hlt (by simp [St.exit5])

/-- Process 3 moves on, and the FIFO holds what it held. -/
theorem Received.goto3 (hi : Received P got wrote s) (pc : Pc3)
    (hdata : s'.fifo.data = s.fifo.data) (hlocal : s'.pgid_3 = s.pgid_3) (hpc3 : s'.pc3 = pc)
    (hpc5 : s'.pc5 = s.pc5)
    (hlt : pc.place < 7 → s.pc3.place < 7)
    (hlead : s'.pgid .three = s.pgid .three ∧ 0 < s.pc3.place ∨ s'.pgid .three = P.pid .three) :
    Received P got wrote s' := by
  refine hi.of_silent hdata hlocal ?_ (by rw [hpc5]; exact id) (by rw [hpc5]; exact And.intro)
  intro h
  rw [hpc3] at h
  refine ⟨hlt h, fun _ => ?_⟩
  exact hlead.imp_left And.symm

/-- Process 5 moves on without a read, and the FIFO holds what it held. -/
theorem Received.goto5 (hi : Received P got wrote s) (pc : Pc5)
    (hdata : s'.fifo.data = s.fifo.data) (hlocal : s'.pgid_3 = s.pgid_3)
    (hpgid : s'.pgid .three = s.pgid .three) (hpc3 : s'.pc3 = s.pc3) (hpc5 : s'.pc5 = pc)
    (hlt : pc.place < 3 → s.pc5.place < 3)
    (hread : 2 < pc.place → pc.place < 5 → 2 < s.pc5.place ∧ s.pc5.place < 5) :
    Received P got wrote s' := by
  refine hi.of_silent hdata hlocal ?_ (by rw [hpc5]; exact hlt) (by rw [hpc5]; exact hread)
  intro h
  rw [hpc3] at h ⊢
  exact ⟨h, fun hpos => Or.inl ⟨hpos, hpgid⟩⟩

/-- **A write of process 3**: what is in the FIFO then is what it has written. -/
theorem Received.write (hi : Received P got wrote s) (hpc : s.pc3 = .write) {bytes : List UInt8}
    {f : Fifo UInt8} (hbytes : bytes <+: message P)
    (hf : s.fifo.perform (.write bytes) = some f) :
    Received P got (wrote ∨ bytes = message P) ((s.pipe f).goto3 .close) := by
  have hempty := hi.unsent (by simp [hpc, Pc3.place])
  have hdata : f.data = bytes := by
    have hput := Fifo.data_of_perform hf
    rw [hempty] at hput
    exact hput.symm
  constructor
  case leader => exact fun _ hlt => absurd hlt (by simp [Pc3.place])
  case unsent => exact fun hlt => absurd hlt (by simp [Pc3.place])
  case arriving => exact fun _ => hdata ▸ hbytes
  case full => exact fun _ hfull => Or.inr (hdata.symm.trans hfull)
  case size => exact hi.size
  case received => exact fun h h' => (hi.received h h').imp_right (And.imp_right Or.inl)

/-- Process 5 ends after a short read. -/
theorem Received.read_short (hi : Received P got wrote s) {bytes : List UInt8} {f : Fifo UInt8}
    (hunsent : s.pc3.place < 7 → f.data = []) :
    Received P got wrote ((s.pipe f).store bytes).exit5 where
  leader := hi.leader
  unsent hlt := (Fifo.hangUpRead_data _).trans (hunsent hlt)
  arriving hlt := absurd hlt (by simp [St.exit5])
  full hlt := absurd hlt (by simp [St.exit5])
  size hlt := absurd hlt (by simp [St.exit5])
  received _ hlt := absurd hlt (by simp [St.exit5])

/-- **A read of eight bytes** brings the whole id, and process 3 has written it. -/
theorem Received.read_full (hi : Received P got wrote s) (hpc : s.pc5 = .read)
    {bytes : List UInt8} {f : Fifo UInt8} (hunsent : s.pc3.place < 7 → f.data = [])
    (hdata : s.fifo.data = bytes ++ f.data) (hlen : ¬ bytes.length < 8) :
    Received P (got ∨ bytes.length = 8) wrote (((s.pipe f).store bytes).goto5 .setpgid) := by
  have h₅ : s.pc5.place < 3 := by simp [hpc, Pc5.place]
  have harriving := hi.arriving h₅
  have hmessage : bytes = message P := by
    refine ((List.prefix_append bytes f.data).trans (hdata ▸ harriving)).eq_of_length_le ?_
    rw [message_length]
    omega
  have hfull : s.fifo.data = message P := by
    refine harriving.eq_of_length_le ?_
    rw [hdata, hmessage, List.length_append]
    omega
  have hstored : bytes ++ s.pgid_3.drop bytes.length = message P := by
    rw [hmessage, message_length, List.drop_of_length_le (hi.size h₅).le, List.append_nil]
  constructor
  case leader => exact hi.leader
  case unsent => exact hunsent
  case arriving => exact fun hlt => absurd hlt (by simp [Pc5.place])
  case full => exact fun hlt => absurd hlt (by simp [Pc5.place])
  case size => exact fun hlt => absurd hlt (by simp [Pc5.place])
  case received =>
    exact fun _ _ => ⟨hstored, Or.inr (hmessage ▸ message_length P), hi.full h₅ hfull⟩

/-- **The steps of process 3**, whatever its calls do. -/
theorem Received.process3 (hi : Received P got wrote s) {r : Outcome} {e : Option Event}
    (h : process3 P s r = some (s', e)) :
    Received P got (wrote ∨ e = some (.write (message P))) s' := by
  have hwrote : Received P got (wrote ∨ e = some (.write (message P))) s := hi.mono id Or.inl
  have hwrite : ∀ {bytes f}, s.pc3 = .write → bytes <+: CInt.bytes 8 (s.pgid .three) →
      s.fifo.perform (.write bytes) = some f →
      Received P got (wrote ∨ some (Event.write bytes) = some (.write (message P)))
        ((s.pipe f).goto3 .close) := by
    intro bytes f hpc hbytes hf
    have hlead := hi.leader (by simp [hpc, Pc3.place]) (by simp [hpc, Pc3.place])
    rw [hlead] at hbytes
    exact (hi.write hpc hbytes hf).mono id
      (Or.imp_right fun heq => congrArg (some ∘ Event.write) heq)
  cases step3_of_process3 h with
  | setpgidSelf hpc =>
      exact hwrote.goto3 .setpgidChild rfl rfl rfl rfl (by simp [hpc, Pc3.place])
        (Or.inr (by simp))
  | setpgidChild g hpc =>
      exact hwrote.goto3 .access rfl rfl rfl rfl (by simp [hpc, Pc3.place])
        (Or.inl ⟨by simp, by simp [hpc, Pc3.place]⟩)
  | access pc hpc =>
      exact hwrote.goto3 pc rfl rfl rfl rfl (by simp [hpc, Pc3.place])
        (Or.inl ⟨rfl, by simp [hpc, Pc3.place]⟩)
  | mkfifo hpc =>
      exact hwrote.goto3 .creat rfl rfl rfl rfl (by simp [hpc, Pc3.place])
        (Or.inl ⟨rfl, by simp [hpc, Pc3.place]⟩)
  | creat hpc hf =>
      exact hwrote.goto3 .opening (Fifo.data_of_silent hf rfl rfl) rfl rfl rfl
        (by simp [hpc, Pc3.place]) (Or.inl ⟨rfl, by simp [hpc, Pc3.place]⟩)
  | opened hpc =>
      exact hwrote.goto3 .write rfl rfl rfl rfl (by simp [hpc, Pc3.place])
        (Or.inl ⟨rfl, by simp [hpc, Pc3.place]⟩)
  | write hpc hbytes hf => exact hwrite hpc hbytes hf
  | writeShort hpc hbytes hf => exact (hwrite hpc hbytes hf).exit3
  | close hpc =>
      exact hwrote.goto3 .after (Fifo.hangUpWrite_data _) rfl rfl rfl (by simp [Pc3.place])
        (Or.inl ⟨rfl, by simp [hpc, Pc3.place]⟩)
  | refused _ | exit => exact hwrote.exit3

/-- **The steps of process 5** whose read does not fail. -/
theorem Received.process5 (hi : Received P got wrote s) {r : Outcome} {e : Option Event}
    (hread : s.pc5 = .read → r ≠ .fail) (h : process5 P s r = some (s', e)) :
    Received P (got ∨ e = some (.read 8)) wrote s' := by
  have hgot : Received P (got ∨ e = some (.read 8)) wrote s := hi.mono Or.inl id
  have hdata : ∀ {bytes f}, s.fifo.perform (.read bytes) = some f →
      s.fifo.data = bytes ++ f.data := by
    intro bytes f hf
    simpa [Fifo.Op.input, Fifo.Op.output] using Fifo.data_of_perform hf
  have hunsent : ∀ {bytes f}, s.fifo.perform (.read bytes) = some f → s.pc3.place < 7 →
      f.data = [] := by
    intro bytes f hf hlt
    have hempty := hi.unsent hlt
    rw [hdata hf] at hempty
    exact (List.append_eq_nil_iff.1 hempty).2
  cases step5_of_process5 h with
  | poll _ _ => exact hgot
  | openRead _ hpc hf =>
      exact hgot.goto5 .opening (Fifo.data_of_silent hf rfl rfl) rfl rfl rfl rfl
        (by simp [hpc, Pc5.place]) (by simp [Pc5.place])
  | interrupted _ hpc =>
      exact hgot.goto5 .open (Fifo.hangUpRead_data _) rfl rfl rfl rfl
        (by simp [hpc, Pc5.place]) (by simp [Pc5.place])
  | opened _ hpc =>
      exact hgot.goto5 .read rfl rfl rfl rfl rfl (by simp [hpc, Pc5.place]) (by simp [Pc5.place])
  | readFails hpc => exact absurd rfl (hread hpc)
  | readShort _ hpc hf _ => exact hgot.read_short (hunsent hf)
  | read _ hpc hf hlen =>
      refine (hi.read_full hpc (hunsent hf) (hdata hf) hlen).mono (Or.imp_right fun heq => ?_) id
      rw [heq]
      rfl
  | setpgid _ pgid g hpc =>
      exact hgot.goto5 .after rfl rfl (by simp) rfl rfl (by simp [Pc5.place])
        (by simp [hpc, Pc5.place])
  | eof _ _ | refused _ _ _ | done _ _ => exact hgot.exit5

end

/-! ### The runs in which the read does not fail -/

/-- The step is not a failing read of process 5. -/
def Reads (s : St) (a : Label) : Prop := a.1 = (.five, .fail) → s.pc5 ≠ .read

/-- **The runs in which the read of process 5 does not fail.**  Any other call may. -/
def reading (P : Pids) : Lts St Label := (system P).restrict Reads

/-- The labels say that process 5 has read eight bytes. -/
def Got (as : List Label) : Prop := ∃ a ∈ as, a.2 = some (.read 8)

/-- The labels say that process 3 has written the whole group id. -/
def Wrote (P : Pids) (as : List Label) : Prop := ∃ a ∈ as, a.2 = some (.write (message P))

theorem got_snoc (as : List Label) (c : Member × Outcome) (e : Option Event) :
    Got (as ++ [(c, e)]) ↔ Got as ∨ e = some (.read 8) := by
  simp [Got, or_and_right, exists_or]

theorem wrote_snoc (P : Pids) (as : List Label) (c : Member × Outcome) (e : Option Event) :
    Wrote P (as ++ [(c, e)]) ↔ Wrote P as ∨ e = some (.write (message P)) := by
  simp [Wrote, or_and_right, exists_or]

/-- **What process 5 uses it has received.** -/
theorem received {P : Pids} {as : List Label} {s : St} (h : (reading P).Exec as s) :
    Received P (Got as) (Wrote P as) s := by
  refine Lts.Exec.invariant (I := fun as s => Received P (Got as) (Wrote P as) s) ?_ ?_ h
  · intro s hs
    exact received_of_init hs _ _
  · rintro as s ⟨⟨p, r⟩, e⟩ s' - hi ⟨hs, hreads⟩
    cases p with
    | three =>
        refine (hi.process3 hs).mono (fun hg => ?_) (wrote_snoc P as _ e).2
        exact (got_snoc as _ e).2 (Or.inl hg)
    | four => cases hs
    | five =>
        have hread : s.pc5 = .read → r ≠ .fail := fun hpc hfail => hreads (by rw [hfail]) hpc
        refine (hi.process5 hread hs).mono (got_snoc as _ e).2 fun hw => ?_
        exact (wrote_snoc P as _ e).2 (Or.inl hw)

/-- **Process 5 calls `setpgid` only after its read has returned eight bytes.** -/
def ReadFirst (as : List Label) : Prop :=
  ∀ xs a ys, as = xs ++ a :: ys → (∃ p pgid, a.2 = some (.setpgid .five p pgid)) → Got xs

/-- The calls of process 3 are its own. -/
theorem caller_of_process3 {P : Pids} {s s' : St} {r : Outcome} {caller p : Member} {pgid : ℤ}
    (h : process3 P s r = some (s', some (.setpgid caller p pgid))) : caller = .three := by
  cases step3_of_process3 h with
  | setpgidSelf _ | setpgidChild _ _ | refused _ => rfl

/-- Process 5 calls `setpgid` at one place. -/
theorem pc5_of_process5 {P : Pids} {s s' : St} {r : Outcome} {caller p : Member} {pgid : ℤ}
    (h : process5 P s r = some (s', some (.setpgid caller p pgid))) : s.pc5 = .setpgid := by
  cases step5_of_process5 h with
  | setpgid _ _ _ hpc | refused _ _ hpc => exact hpc

theorem readFirst {P : Pids} {as : List Label} {s : St} (h : (reading P).Exec as s) :
    ReadFirst as := by
  refine h.forall_splits ?_
  rintro as s ⟨⟨q, r⟩, _⟩ s' hr ⟨hs, -⟩ ⟨p, pgid, rfl⟩
  cases q with
  | three => cases caller_of_process3 hs
  | four => cases hs
  | five =>
      have hpc := pc5_of_process5 hs
      exact ((received hr).received (by simp [hpc, Pc5.place]) (by simp [hpc, Pc5.place])).2.1

/-! ### The runs in which it fails -/

theorem pc5_of_process3 {P : Pids} {s s' : St} {r : Outcome} {e : Option Event}
    (h : process3 P s r = some (s', e)) : s'.pc5 = s.pc5 ∧ e ≠ some (.read 8) := by
  cases step3_of_process3 h <;> exact ⟨rfl, by simp⟩

/-- Behind its read process 5 stays behind it. -/
theorem place_of_process5 {P : Pids} {s s' : St} {r : Outcome} {e : Option Event}
    (h : process5 P s r = some (s', e)) (hread : 2 < s.pc5.place ∨ e = some (.read 8)) :
    2 < s'.pc5.place := by
  cases step5_of_process5 h with
  | poll _ hpc | openRead _ hpc _ | interrupted _ hpc | opened _ hpc =>
      rw [hpc] at hread
      simp [Pc5.place] at hread
  | readFails _ | read _ _ _ _ | setpgid _ _ _ _ => simp [Pc5.place]
  | eof _ _ | readShort _ _ _ _ | refused _ _ _ | done _ _ => simp [St.exit5]

/-- Process 5 reads once. -/
theorem place_of_got {P : Pids} {as : List Label} {s : St} (h : (system P).Exec as s)
    (hgot : Got as) : 2 < s.pc5.place := by
  refine Lts.Exec.invariant (I := fun as s => Got as → 2 < s.pc5.place) ?_ ?_ h hgot
  · rintro s - ⟨a, ha, -⟩
    cases ha
  · rintro as s ⟨⟨p, r⟩, e⟩ s' - ih hs hg
    have hread := ((got_snoc as _ e).1 hg).imp_left ih
    cases p with
    | three =>
        obtain ⟨hpc, he⟩ := pc5_of_process3 hs
        rw [hpc]
        exact hread.resolve_right he
    | four => cases hs
    | five => exact place_of_process5 hs hread

/-- What process 5 does with its local variable. -/
theorem process5_setpgid (P : Pids) {s : St} (hpc : s.pc5 = .setpgid) (r : Outcome) :
    ∃ s' pgid, process5 P s r = some (s', some (.setpgid .five .five pgid)) := by
  unfold process5
  rw [hpc]
  dsimp only
  split <;> exact ⟨_, _, rfl⟩

/-- **After a read that fails process 5 goes on to its `setpgid`.** -/
theorem not_readFirst {P : Pids} {as : List Label} {s s' : St} {a : Label}
    (h : (system P).Exec as s) (hs : (system P).step s a s') (hfail : ¬ Reads s a) :
    ∃ bs s'', (system P).Run s' bs s'' ∧ ¬ ReadFirst (as ++ a :: bs) := by
  obtain ⟨c, e⟩ := a
  simp only [Reads, Classical.not_imp, not_not] at hfail
  obtain ⟨rfl, hpc⟩ := hfail
  have hstep : process5 P s .fail = some (s', e) := hs
  have hgoto : s' = s.goto5 .setpgid ∧ e = some (.read (-1)) := by
    unfold process5 at hstep
    rw [hpc] at hstep
    cases hstep
    exact ⟨rfl, rfl⟩
  obtain ⟨rfl, rfl⟩ := hgoto
  obtain ⟨s'', pgid, hset⟩ := process5_setpgid P (s := s.goto5 .setpgid) rfl .ok
  have hnext : (system P).step (s.goto5 .setpgid)
      ((.five, .ok), some (.setpgid .five .five pgid)) s'' := hset
  refine ⟨_, s'', Lts.Run.single hnext, fun hfirst => ?_⟩
  have hgot := hfirst (as ++ [_]) _ [] (by rw [List.append_assoc]; rfl) ⟨_, _, rfl⟩
  rcases (got_snoc as _ _).1 hgot with hbefore | he
  · have hplace := place_of_got h hbefore
    rw [hpc] at hplace
    exact absurd hplace (by decide)
  · cases he

end GroupHandover
