/-
**Resolving symbolic links by name** (`assignment_2/realpath.c`).

`myrealpath` follows a symbolic link until it comes to a path that is none, and returns the last
component of that path.  It has two modes: for a path given by the caller, and, with a null pointer,
for every entry of the working directory.  The results are left in the global table `strs`, with
their number in `pos`.

Each mode has its own copy of the loop.  Both choose the next path by substring tests: the target
itself, the target below the directory of the current link, or the target below the directory of the
path the loop started from.

Main definitions:

* `Realpath.hop` — the path the loop goes on from;
* `Realpath.single`, `Realpath.scan`, `Realpath.myrealpath` — the two modes and the function;
* `Realpath.Calls` — a call returns with an outcome;
* `Realpath.Leads` — the loop, started at a path, ends at another one;
* `Realpath.Resolves` — a link is resolved to a name;
* `Realpath.Alone` — what a call for a path returns, whatever happened before.

Main results:

* `Realpath.exists_leads_iff_acc` — the loop ends exactly when its hops are well founded;
* `Realpath.single_returns_iff`, `Realpath.scan_returns_iff` — what the two modes return, given
  where the loop leads.
-/

import AupPrograms.FileSys
import AupPrograms.Loop
import Mathlib.Data.List.Forall2
import Mathlib.Logic.Function.Basic

set_option relaxedAutoImplicit false
set_option autoImplicit false

namespace Realpath

open PathName

/-! ### The program -/

/-- The name of a directory entry. -/
abbrev Name := {s : Str // IsName s}

/-- What a call finds. -/
structure Env where
  /-- The files, and the working directory. -/
  fs : FileSys
  /-- `pathconf("/", _PC_PATH_MAX)`, which is -1 on failure. -/
  pathMax : ℤ
  /-- What `readdir` lists in the working directory, unless that cannot be opened. -/
  listing : Option (List Name)
  /-- The string in the uninitialised buffer `buf1`. -/
  junk : Str

/-- The global variables.  The entries of `strs` from 256 on stand for what lies behind it. -/
structure Globals where
  pos : ℕ
  strs : ℕ → Option Str

/-- The global variables of a fresh process. -/
def fresh : Globals := ⟨0, fun _ => none⟩

/-- What a call leaves: its value, the globals, and the indices of `strs` it has written to. -/
structure Outcome where
  ret : Option Str
  globals : Globals
  writes : List ℕ

/-- The two buffers, and the flag that the scan keeps. -/
structure Bufs where
  buf1 : Str
  buf2 : Str
  flag : Bool

/-- The path that is tried next after the link `cur` with its target, in a loop started from `base`:
`dirname(base)` is asked for unless the target contains `..`. -/
def hop (base cur target : Str) : Str :=
  if contains target ['.', '.'] then
    if contains (dirname cur) ['.'] then target else join (dirname cur) target
  else if contains (dirname base) ['.'] then target
  else join (dirname base) target

/-- The body of `while ((size = readlink(buf2, buf1, PATH_MAX)) > 0)`. -/
def hopBody (fs : FileSys) (base : Str) (b : Bufs) : Bufs ⊕ Bufs :=
  match fs.readlink b.buf2 with
  | none => .inr b
  | some target => .inl ⟨hop base b.buf2 target, hop base b.buf2 target, true⟩

/-- `myrealpath(path)`. -/
def single (fuel : ℕ) (env : Env) (path : Str) (g : Globals) : Option Outcome :=
  (Loop.run (hopBody env.fs path) fuel ⟨env.junk, path, false⟩).map fun b =>
    ⟨some (basename b.buf1), ⟨1, Function.update g.strs 0 (some (basename b.buf1))⟩, [0]⟩

/-- Where the scan of the working directory stands. -/
structure Scan where
  buf1 : Str
  globals : Globals
  writes : List ℕ

/-- `strs[pos] = s; pos++`. -/
def Globals.push (g : Globals) (s : Str) : Globals :=
  ⟨g.pos + 1, Function.update g.strs g.pos (some s)⟩

/-- What is done after the loop for an entry: `if (flag) { strs[pos] = basename(buf1); pos++; }`. -/
def scanned (s : Scan) (b : Bufs) : Scan :=
  if b.flag then ⟨b.buf1, s.globals.push (basename b.buf1), s.writes ++ [s.globals.pos]⟩
  else ⟨b.buf1, s.globals, s.writes⟩

/-- One entry of the directory. -/
def scanEntry (fs : FileSys) (fuel : ℕ) (s : Scan) (name : Name) : Option Scan :=
  (Loop.run (hopBody fs name) fuel ⟨s.buf1, name, false⟩).map (scanned s)

/-- `myrealpath(NULL)`, once the directory is open. -/
def scan (fuel : ℕ) (env : Env) (names : List Name) (g : Globals) : Option Outcome :=
  (names.foldlM (scanEntry env.fs fuel) ⟨env.junk, g, []⟩).map fun s =>
    ⟨s.globals.strs 0, s.globals, s.writes⟩

/-- `myrealpath`: the outcome, or `none` when the fuel ran out. -/
def myrealpath (fuel : ℕ) (env : Env) (path : Option Str) (g : Globals) : Option Outcome :=
  if env.pathMax = -1 then some ⟨none, g, []⟩
  else
    match path with
    | none =>
        match env.listing with
        | none => some ⟨none, g, []⟩
        | some names => scan fuel env names g
    | some p => single fuel env p g

/-- The call returns with this outcome. -/
def Calls (env : Env) (path : Option Str) (g : Globals) (o : Outcome) : Prop :=
  ∃ fuel, myrealpath fuel env path g = some o

/-! ### Where the loop leads -/

/-- A path names a link. -/
def IsLink (fs : FileSys) (q : Str) : Prop := fs.readlink q ≠ none

instance (fs : FileSys) (q : Str) : Decidable (IsLink fs q) :=
  inferInstanceAs (Decidable (_ ≠ none))

/-- **The hops from `q` end at `e`**, in a loop started from `base`. -/
inductive Leads (fs : FileSys) (base : Str) : Str → Str → Prop
  | stop {q : Str} (h : fs.readlink q = none) : Leads fs base q q
  | hop {q t e : Str} (h : fs.readlink q = some t) (hl : Leads fs base (hop base q t) e) :
      Leads fs base q e

/-- One hop. -/
def HopRel (fs : FileSys) (base : Str) (q' q : Str) : Prop :=
  ∃ t, fs.readlink q = some t ∧ q' = hop base q t

/-- A link is resolved to a name. -/
def Resolves (fs : FileSys) (path r : Str) : Prop :=
  IsLink fs path ∧ ∃ e, Leads fs path path e ∧ r = basename e

variable {fs : FileSys} {base : Str}

/-- The hops end at one path only. -/
theorem Leads.unique {q e e' : Str} (h : Leads fs base q e) (h' : Leads fs base q e') : e = e' := by
  induction h with
  | stop h =>
      cases h' with
      | stop _ => rfl
      | hop h' _ => rw [h] at h'; cases h'
  | hop h _ ih =>
      cases h' with
      | stop h' => rw [h] at h'; cases h'
      | hop h' hl' =>
          rw [h] at h'
          cases h'
          exact ih hl'

theorem Resolves.unique {path r r' : Str} (h : Resolves fs path r) (h' : Resolves fs path r') :
    r = r' := by
  obtain ⟨-, e, he, rfl⟩ := h
  obtain ⟨-, e', he', rfl⟩ := h'
  rw [he.unique he']

/-- **The loop ends exactly when its hops are well founded.** -/
theorem exists_leads_iff_acc {q : Str} : (∃ e, Leads fs base q e) ↔ Acc (HopRel fs base) q := by
  constructor
  · rintro ⟨e, h⟩
    induction h with
    | stop h =>
        refine Acc.intro _ fun q' hq' => ?_
        obtain ⟨t, ht, -⟩ := hq'
        rw [h] at ht
        cases ht
    | hop h _ ih =>
        refine Acc.intro _ fun q' hq' => ?_
        obtain ⟨t, ht, rfl⟩ := hq'
        rw [h] at ht
        cases ht
        exact ih
  · intro h
    induction h with
    | intro q _ ih =>
        cases ht : fs.readlink q with
        | none => exact ⟨q, .stop ht⟩
        | some t =>
            obtain ⟨e, he⟩ := ih (hop base q t) ⟨t, ht, rfl⟩
            exact ⟨e, .hop ht he⟩

/-! ### The loop -/

theorem hopBody_stop {b : Bufs} (h : fs.readlink b.buf2 = none) : hopBody fs base b = .inr b := by
  simp only [hopBody, h]

theorem hopBody_hop {b : Bufs} {t : Str} (h : fs.readlink b.buf2 = some t) :
    hopBody fs base b = .inl ⟨hop base b.buf2 t, hop base b.buf2 t, true⟩ := by
  simp only [hopBody, h]

/-- What the buffers hold when the hops from `b.buf2` have ended at `e`: nothing has changed if
there was none. -/
def ended (fs : FileSys) (b : Bufs) (e : Str) : Bufs :=
  if IsLink fs b.buf2 then ⟨e, e, true⟩ else b

/-- The loop follows the hops. -/
theorem returns_of_leads {b : Bufs} {e : Str} (h : Leads fs base b.buf2 e) :
    Loop.Returns (hopBody fs base) b (ended fs b e) := by
  generalize hq : b.buf2 = q at h
  induction h generalizing b with
  | stop h =>
      subst hq
      rw [Loop.returns_of_leaves (hopBody_stop h)]
      exact if_neg fun hlink => hlink h
  | @hop q t e h hl ih =>
      subst hq
      have hlink : IsLink fs b.buf2 := by simp [IsLink, h]
      rw [Loop.returns_of_goesOn (hopBody_hop h), ended, if_pos hlink]
      have hnext := ih (b := ⟨hop base b.buf2 t, hop base b.buf2 t, true⟩) rfl
      unfold ended at hnext
      split_ifs at hnext with hlink'
      · exact hnext
      · -- the first hop was the last one
        rw [hl.unique (.stop (not_not.1 hlink'))]
        exact hnext

/-- When the loop returns, the hops have ended. -/
theorem leads_of_returns {b b' : Bufs} (h : Loop.Returns (hopBody fs base) b b') :
    ∃ e, Leads fs base b.buf2 e := by
  -- the iterations are well founded, so the argument goes by induction on them
  have hacc := Loop.exists_returns_iff_acc.1 ⟨b', h⟩
  clear h
  induction hacc with
  | intro b _ ih =>
      cases ht : fs.readlink b.buf2 with
      | none => exact ⟨_, .stop ht⟩
      | some t =>
          obtain ⟨e, he⟩ := ih _ (hopBody_hop ht)
          exact ⟨e, .hop ht he⟩

/-- **What the loop returns.** -/
theorem returns_iff {b b' : Bufs} :
    Loop.Returns (hopBody fs base) b b' ↔ ∃ e, Leads fs base b.buf2 e ∧ b' = ended fs b e := by
  constructor
  · intro h
    obtain ⟨e, he⟩ := leads_of_returns h
    exact ⟨e, he, h.unique (returns_of_leads he)⟩
  · rintro ⟨e, he, rfl⟩
    exact returns_of_leads he

/-! ### The two modes -/

/-- The outcome of a single call that leaves the string `s` in `buf1`. -/
def singleOutcome (g : Globals) (s : Str) : Outcome :=
  ⟨some (basename s), ⟨1, Function.update g.strs 0 (some (basename s))⟩, [0]⟩

/-- What a single call returns: on a path that is no link, what happened to be in the buffer. -/
theorem single_returns_iff {env : Env} {p : Str} {g : Globals} {o : Outcome} :
    (∃ fuel, single fuel env p g = some o) ↔
      ∃ e, Leads env.fs p p e ∧ o = singleOutcome g (if IsLink env.fs p then e else env.junk) := by
  have hbuf : ∀ e, (ended env.fs ⟨env.junk, p, false⟩ e).buf1
      = if IsLink env.fs p then e else env.junk := fun e => by
    unfold ended
    split_ifs <;> rfl
  constructor
  · rintro ⟨fuel, h⟩
    obtain ⟨b, hb, rfl⟩ := Option.map_eq_some_iff.1 h
    obtain ⟨e, he, rfl⟩ := returns_iff.1 ⟨fuel, hb⟩
    exact ⟨e, he, by rw [← hbuf]; rfl⟩
  · rintro ⟨e, he, rfl⟩
    obtain ⟨fuel, h⟩ := (returns_iff (b := ⟨env.junk, p, false⟩)).2 ⟨e, he, rfl⟩
    refine ⟨fuel, ?_⟩
    rw [single, h, Option.map_some, hbuf]
    rfl

/-- The entries that are links. -/
def links (fs : FileSys) (names : List Name) : List Name := names.filter fun n => IsLink fs n

/-- **The results of a scan**: what each of the links is resolved to, in the listing's order. -/
def Results (fs : FileSys) (names : List Name) (rs : List Str) : Prop :=
  List.Forall₂ (fun (n : Name) r => Resolves fs n r) (links fs names) rs

/-- The results of a scan are determined. -/
theorem Results.unique {names : List Name} {rs rs' : List Str} (h : Results fs names rs)
    (h' : Results fs names rs') : rs = rs' :=
  Relator.RightUnique.forall₂ (fun _ _ _ hr hr' => hr.unique hr') h h'

/-- A scan has results exactly when the hops from every link end. -/
theorem exists_results_iff {names : List Name} :
    (∃ rs, Results fs names rs) ↔ ∀ n ∈ links fs names, ∃ e, Leads fs n n e := by
  unfold Results
  have hlinks : ∀ n ∈ links fs names, IsLink fs n := fun n hn => by
    simpa using (List.mem_filter.1 hn).2
  constructor
  · rintro ⟨rs, hrs⟩ n hn
    obtain ⟨i, hi, rfl⟩ := List.getElem_of_mem hn
    obtain ⟨-, e, he, -⟩ := hrs.get hi (hrs.length_eq ▸ hi)
    exact ⟨e, he⟩
  · intro h
    generalize links fs names = ns at h hlinks ⊢
    induction ns with
    | nil => exact ⟨[], .nil⟩
    | cons n ns ih =>
        obtain ⟨rs, hrs⟩ := ih (fun m hm => h m (List.mem_cons_of_mem n hm))
          fun m hm => hlinks m (List.mem_cons_of_mem n hm)
        obtain ⟨e, he⟩ := h n List.mem_cons_self
        exact ⟨basename e :: rs, .cons ⟨hlinks n List.mem_cons_self, e, he, rfl⟩ hrs⟩

/-- The globals after the results `rs`. -/
def Globals.append (g : Globals) (rs : List Str) : Globals := rs.foldl Globals.push g

/-- What one entry does to the scan: a link leaves its name in the table, anything else nothing. -/
theorem scanEntry_returns_iff {s s' : Scan} {name : Name} :
    (∃ fuel, scanEntry fs fuel s name = some s') ↔
      ∃ e, Leads fs name name e ∧ s' =
        if IsLink fs name then ⟨e, s.globals.push (basename e), s.writes ++ [s.globals.pos]⟩
        else s := by
  have hended : ∀ e, scanned s (ended fs ⟨s.buf1, name, false⟩ e)
      = if IsLink fs name then ⟨e, s.globals.push (basename e), s.writes ++ [s.globals.pos]⟩
        else s := fun e => by
    by_cases hlink : IsLink fs name
    · simp [scanned, ended, hlink]
    · simp [scanned, ended, hlink]
  constructor
  · rintro ⟨fuel, h⟩
    obtain ⟨b, hb, rfl⟩ := Option.map_eq_some_iff.1 h
    obtain ⟨e, he, rfl⟩ := returns_iff.1 ⟨fuel, hb⟩
    exact ⟨e, he, hended e⟩
  · rintro ⟨e, he, rfl⟩
    obtain ⟨fuel, h⟩ := (returns_iff (b := ⟨s.buf1, name, false⟩)).2 ⟨e, he, rfl⟩
    refine ⟨fuel, ?_⟩
    rw [scanEntry, h, Option.map_some, hended]

theorem scanEntry_mono (n m : ℕ) (s : Scan) (name : Name) (s' : Scan) (hle : n ≤ m)
    (h : scanEntry fs n s name = some s') : scanEntry fs m s name = some s' := by
  obtain ⟨b, hb, rfl⟩ := Option.map_eq_some_iff.1 h
  rw [scanEntry, Loop.run_mono hle hb, Option.map_some]

/-- When the scan of some entries returns, every link among them has been resolved, and the results
are in the table, one after the other. -/
theorem resolves_of_foldlM {names : List Name} {s s' : Scan}
    (h : ∃ fuel, names.foldlM (scanEntry fs fuel) s = some s') :
    ∃ rs, Results fs names rs ∧ s'.globals = s.globals.append rs ∧
      s'.writes = s.writes ++ List.range' s.globals.pos rs.length := by
  induction names generalizing s with
  | nil =>
      obtain ⟨fuel, hfuel⟩ := h
      cases hfuel
      exact ⟨[], .nil, rfl, by simp⟩
  | cons n names ih =>
      obtain ⟨s₁, h₁, h₂⟩ := (Loop.exists_foldlM_cons scanEntry_mono).1 h
      obtain ⟨e, he, rfl⟩ := scanEntry_returns_iff.1 h₁
      obtain ⟨rs, hrs, hglobals, hwrites⟩ := ih h₂
      by_cases hlink : IsLink fs n
      · have hlinks : links fs (n :: names) = n :: links fs names := by simp [links, hlink]
        rw [if_pos hlink] at hglobals hwrites
        refine ⟨basename e :: rs, ?_, hglobals, ?_⟩
        · unfold Results
          rw [hlinks]
          exact .cons ⟨hlink, e, he, rfl⟩ hrs
        · simpa [Globals.push, List.range'_succ] using hwrites
      · have hlinks : links fs (n :: names) = links fs names := by simp [links, hlink]
        rw [if_neg hlink] at hglobals hwrites
        refine ⟨rs, ?_, hglobals, hwrites⟩
        unfold Results
        rwa [hlinks]

/-- The scan of some entries returns when every link among them can be resolved. -/
theorem exists_foldlM {names : List Name} (h : ∀ n ∈ links fs names, ∃ e, Leads fs n n e)
    (s : Scan) : ∃ s' fuel, names.foldlM (scanEntry fs fuel) s = some s' := by
  induction names generalizing s with
  | nil => exact ⟨s, 0, rfl⟩
  | cons n names ih =>
      have hlead : ∃ e, Leads fs n n e := by
        by_cases hlink : IsLink fs n
        · exact h n (by simp [links, hlink])
        · exact ⟨n, .stop (not_not.1 hlink)⟩
      obtain ⟨e, he⟩ := hlead
      have hrest : ∀ m ∈ links fs names, ∃ e, Leads fs m m e := fun m hm => by
        obtain ⟨hmem, hlink⟩ := List.mem_filter.1 hm
        exact h m (List.mem_filter.2 ⟨List.mem_cons_of_mem n hmem, hlink⟩)
      obtain ⟨s', hs'⟩ := ih hrest _
      exact ⟨s', (Loop.exists_foldlM_cons scanEntry_mono).2
        ⟨_, scanEntry_returns_iff.2 ⟨e, he, rfl⟩, hs'⟩⟩

/-- The outcome of a scan with the results `rs`. -/
def scanOutcome (g : Globals) (rs : List Str) : Outcome :=
  ⟨(g.append rs).strs 0, g.append rs, List.range' g.pos rs.length⟩

/-- **What a scan returns**: the name of each link, behind what the table held before. -/
theorem scan_returns_iff {env : Env} {names : List Name} {g : Globals} {o : Outcome} :
    (∃ fuel, scan fuel env names g = some o) ↔
      ∃ rs, Results env.fs names rs ∧ o = scanOutcome g rs := by
  constructor
  · rintro ⟨fuel, h⟩
    obtain ⟨s, hs, rfl⟩ := Option.map_eq_some_iff.1 h
    obtain ⟨rs, hrs, hglobals, hwrites⟩ := resolves_of_foldlM ⟨fuel, hs⟩
    refine ⟨rs, hrs, ?_⟩
    rw [hglobals, hwrites]
    rfl
  · rintro ⟨rs, hrs, rfl⟩
    obtain ⟨s, fuel, hs⟩ := exists_foldlM (exists_results_iff.1 ⟨rs, hrs⟩) ⟨env.junk, g, []⟩
    obtain ⟨rs', hrs', hglobals, hwrites⟩ := resolves_of_foldlM ⟨fuel, hs⟩
    obtain rfl := hrs.unique hrs'
    refine ⟨fuel, ?_⟩
    rw [scan, hs, Option.map_some, hglobals, hwrites]
    rfl

/-! ### The table of results -/

/-- `strs[0..pos)`. -/
def Globals.table (g : Globals) : List (Option Str) := (List.range g.pos).map g.strs

theorem Globals.table_push (g : Globals) (s : Str) : (g.push s).table = g.table ++ [some s] := by
  have hkeep : (List.range g.pos).map (g.push s).strs = (List.range g.pos).map g.strs := by
    refine List.map_congr_left fun i hi => ?_
    exact Function.update_of_ne (Nat.ne_of_lt (List.mem_range.1 hi)) _ _
  have hlast : (g.push s).strs g.pos = some s := Function.update_self ..
  have hpos : (g.push s).pos = g.pos + 1 := rfl
  rw [Globals.table, hpos, List.range_succ, List.map_append, hkeep]
  simp [Globals.table, hlast]

theorem Globals.table_append (g : Globals) (rs : List Str) :
    (g.append rs).table = g.table ++ rs.map some := by
  induction rs generalizing g with
  | nil => simp [Globals.append]
  | cons r rs ih =>
      have happ : g.append (r :: rs) = (g.push r).append rs := rfl
      rw [happ, ih, Globals.table_push]
      simp

@[simp] theorem Globals.table_length (g : Globals) : g.table.length = g.pos := by
  simp [Globals.table]

theorem Globals.append_pos (g : Globals) (rs : List Str) :
    (g.append rs).pos = g.pos + rs.length := by
  rw [← Globals.table_length, Globals.table_append]
  simp

/-- The results of a scan in a fresh process. -/
theorem table_fresh_append (rs : List Str) : (fresh.append rs).table = rs.map some := by
  rw [Globals.table_append]
  rfl

/-- Later results do not touch earlier ones. -/
theorem Globals.append_strs_of_lt (g : Globals) (rs : List Str) {i : ℕ} (hi : i < g.pos) :
    (g.append rs).strs i = g.strs i := by
  induction rs generalizing g with
  | nil => rfl
  | cons r rs ih =>
      have happ : g.append (r :: rs) = (g.push r).append rs := rfl
      rw [happ, ih (g.push r) (Nat.lt_succ_of_lt hi)]
      exact Function.update_of_ne (Nat.ne_of_lt hi) _ _

theorem fresh_append_head (rs : List Str) : (fresh.append rs).strs 0 = rs.head? := by
  cases rs with
  | nil => rfl
  | cons r rs =>
      have happ : fresh.append (r :: rs) = (fresh.push r).append rs := rfl
      rw [happ, Globals.append_strs_of_lt (fresh.push r) rs (Nat.succ_pos 0)]
      rfl

/-! ### Calls -/

theorem calls_scan_iff {env : Env} {names : List Name} (hmax : env.pathMax ≠ -1)
    (hlist : env.listing = some names) {g : Globals} {o : Outcome} :
    Calls env none g o ↔ ∃ rs, Results env.fs names rs ∧ o = scanOutcome g rs := by
  simp only [Calls, myrealpath, if_neg hmax, hlist, scan_returns_iff]

theorem calls_single_iff {env : Env} (hmax : env.pathMax ≠ -1) {p : Str} {g : Globals}
    {o : Outcome} :
    Calls env (some p) g o ↔
      ∃ e, Leads env.fs p p e ∧ o = singleOutcome g (if IsLink env.fs p then e else env.junk) := by
  simp only [Calls, myrealpath, if_neg hmax, single_returns_iff]

/-- A call that gives up before it looks at any link. -/
theorem calls_failed_iff {env : Env} {path : Option Str} {g : Globals} {o : Outcome}
    (h : env.pathMax = -1 ∨ path = none ∧ env.listing = none) :
    Calls env path g o ↔ o = ⟨none, g, []⟩ := by
  by_cases hmax : env.pathMax = -1
  · simp [Calls, myrealpath, hmax, eq_comm]
  · obtain ⟨rfl, hlist⟩ := h.resolve_left hmax
    simp [Calls, myrealpath, hmax, hlist, eq_comm]

/-- A call for `p` returns `r`, whatever the globals and the uninitialised buffer hold. -/
def Alone (env : Env) (p r : Str) : Prop :=
  ∀ junk g, ∃ o, Calls { env with junk := junk } (some p) g o ∧ o.ret = some r

theorem alone_of_resolves {env : Env} (hmax : env.pathMax ≠ -1) {p r : Str}
    (h : Resolves env.fs p r) : Alone env p r := by
  obtain ⟨hlink, e, he, rfl⟩ := h
  intro junk g
  refine ⟨_, (calls_single_iff (by exact hmax)).2 ⟨e, he, rfl⟩, ?_⟩
  simp [singleOutcome, hlink]

end Realpath
