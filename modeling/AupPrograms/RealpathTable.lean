/-
**The results that `myrealpath` leaves in its table** (`assignment_2/realpath.c`).

The table `strs` and its length `pos` are global.  A call for a path sets `pos` to 1; a scan of the
working directory only increments it.  So a scan describes its own results in a fresh process,
as long as the links come to an end (`Realpath.scan_agrees_iff`); but over a sequence of calls the
table describes the last one only as long as no scan finds results of an earlier call there, and
every path asked for is a link (`Realpath.described_iff`).

Main definitions:

* `Realpath.calls` — a process that calls `myrealpath` any number of times;
* `Realpath.Described` — the table describes a call;
* `Realpath.Clean` — a call finds the process in a state in which it will.

Main results:

* `Realpath.scan_agrees_iff` — a scan in a fresh process agrees with the calls for single paths,
  exactly when the links from every entry come to an end;
* `Realpath.described_iff` — **the table describes every call of a run exactly when all are clean.**
-/

import AupPrograms.Lts
import AupPrograms.RealpathEnds

set_option relaxedAutoImplicit false
set_option autoImplicit false

namespace Realpath

open PathName

/-! ### A scan in a fresh process -/

/-- A loop that starts from a name puts no directory before a target without two dots. -/
theorem prefixOf_name (n : Name) : prefixOf n = none := by
  rw [prefixOf, dotted, n.property.dirname]
  rfl

/-- The loop for an entry ends exactly when the links from it come to an end. -/
theorem ends_iff_leads {fs : FileSys} {n : Name} {x : At} (hx : Names fs n x) :
    {y | Relation.ReflTransGen (LinkStep fs none) y x}.Finite ∧
      Descent.Acyclic (LinkStep fs none) x ↔ ∃ e, Leads fs n n e := by
  rw [exists_leads_iff_acc_linkStep hx, prefixOf_name,
    Descent.acc_iff_finite_and_acyclic linkStep_det]

/-- **A scan in a fresh process leaves what the calls for its links would return, one by one,
exactly if the links that each entry leads to are finitely many and none leads back to itself.** -/
theorem scan_agrees_iff {env : Env} {names : List Name} (hmax : env.pathMax ≠ -1)
    (hlist : env.listing = some names) :
    (∃ o rs, Calls env none fresh o ∧ o.globals.pos = (links env.fs names).length ∧
      o.globals.table = rs.map some ∧
      List.Forall₂ (fun (n : Name) r => Alone env n r) (links env.fs names) rs) ↔
    ∀ n ∈ names, ∀ x, Names env.fs n x →
      {y | Relation.ReflTransGen (LinkStep env.fs none) y x}.Finite ∧
        Descent.Acyclic (LinkStep env.fs none) x := by
  have hacc : (∀ n ∈ names, ∀ x, Names env.fs n x →
      {y | Relation.ReflTransGen (LinkStep env.fs none) y x}.Finite ∧
        Descent.Acyclic (LinkStep env.fs none) x) ↔
      ∀ n ∈ links env.fs names, ∃ e, Leads env.fs n n e := by
    constructor
    · intro h n hn
      obtain ⟨hmem, hlink⟩ := List.mem_filter.1 hn
      obtain ⟨x, hx⟩ := exists_names_iff.2 (by simpa using hlink)
      exact (ends_iff_leads hx).1 (h n hmem x hx)
    · intro h n hmem x hx
      rw [ends_iff_leads hx]
      have hlink : IsLink env.fs n := exists_names_iff.1 ⟨x, hx⟩
      exact h n (List.mem_filter.2 ⟨hmem, by simpa using hlink⟩)
  rw [hacc, ← exists_results_iff]
  constructor
  · rintro ⟨o, -, ho, -⟩
    obtain ⟨rs, hrs, -⟩ := (calls_scan_iff hmax hlist).1 ho
    exact ⟨rs, hrs⟩
  · rintro ⟨rs, hrs⟩
    refine ⟨scanOutcome fresh rs, rs, (calls_scan_iff hmax hlist).2 ⟨rs, hrs, rfl⟩, ?_, ?_,
      hrs.imp fun n r hr => alone_of_resolves hmax hr⟩
    · simp [scanOutcome, Globals.append_pos, fresh, hrs.length_eq]
    · exact table_fresh_append rs

/-- A working directory with the link `l` to the file `f`. -/
def plain : Env where
  fs := .ofLists [[]] [([['l']], ['f'])] [] (by decide)
  pathMax := 4096
  listing := some [⟨['.'], by decide⟩, ⟨['.', '.'], by decide⟩, ⟨['f'], by decide⟩,
    ⟨['l'], by decide⟩]
  junk := []

theorem leads_plain : Leads plain.fs ['l'] ['l'] ['f'] := by
  have hhop : hop ['l'] ['l'] ['f'] = ['f'] := by decide
  refine Leads.hop (t := ['f']) (by decide) ?_
  rw [hhop]
  exact Leads.stop (by decide)

theorem links_plain {names : List Name} (h : plain.listing = some names) :
    links plain.fs names = [⟨['l'], by decide⟩] := by
  cases h
  decide

/-- There the scan finds the link and resolves it as the call for `l` does. -/
theorem scan_agrees_plain : ∃ o rs, Calls plain none fresh o ∧ o.globals.pos = 1 ∧
    o.globals.table = rs.map some ∧
    List.Forall₂ (fun (n : Name) r => Alone plain n r) [⟨['l'], by decide⟩] rs := by
  have hlinks := links_plain rfl
  obtain ⟨o, rs, ho, hpos, htable, halone⟩ :=
    (scan_agrees_iff (by decide : plain.pathMax ≠ -1) rfl).2 fun n hn x hx => by
      have hlink : IsLink plain.fs n := exists_names_iff.1 ⟨x, hx⟩
      have hmem : n ∈ links plain.fs _ := List.mem_filter.2 ⟨hn, decide_eq_true hlink⟩
      rw [hlinks] at hmem
      obtain rfl := List.mem_singleton.1 hmem
      exact (ends_iff_leads hx).2 ⟨_, leads_plain⟩
  rw [hlinks] at hpos halone
  exact ⟨o, rs, ho, hpos, htable, halone⟩

/-- A working directory with the link `l` to `a/b`, which is a link to `a/l`. -/
def tangled : Env where
  fs := .ofLists [[], [['a']]] [([['l']], ['a', '/', 'b']), ([['b'], ['a']], ['l'])] [] (by decide)
  pathMax := 4096
  listing := some [⟨['.'], by decide⟩, ⟨['.', '.'], by decide⟩, ⟨['a'], by decide⟩,
    ⟨['l'], by decide⟩]
  junk := []

/-- How far a place is from the end of its chain. -/
def rank (l : Loc) : ℕ := if l = [['l']] then 2 else if l = [['b'], ['a']] then 1 else 0

theorem acyclic_tangled : tangled.fs.Acyclic := by
  refine Subrelation.wf ?_ (measure rank).wf
  rintro l' l ⟨t, hl, ht⟩
  have hmem := FileSys.mem_of_lookup hl
  simp only [List.mem_cons, List.not_mem_nil, or_false, Prod.mk.injEq] at hmem
  rcases hmem with ⟨rfl, rfl⟩ | ⟨rfl, rfl⟩
  · have hnext : tangled.fs.follow [['l']] ['a', '/', 'b'] = some [['b'], ['a']] := by decide
    rw [hnext] at ht
    cases ht
    exact (by decide : rank [['b'], ['a']] < rank [['l']])
  · have hnext : tangled.fs.follow [['b'], ['a']] ['l'] = some [['l'], ['a']] := by decide
    rw [hnext] at ht
    cases ht
    exact (by decide : rank [['l'], ['a']] < rank [['b'], ['a']])

/-- From a set of paths that are all links to paths in the set, the hops never end. -/
theorem not_leads_of_invariant {fs : FileSys} {base : Str} {I : Str → Prop}
    (h : ∀ q, I q → ∃ t, fs.readlink q = some t ∧ I (hop base q t)) {q : Str} (hq : I q) (e : Str) :
    ¬ Leads fs base q e := by
  have hgoes : ∀ b : Bufs, I b.buf2 → ∃ b', hopBody fs base b = .inl b' ∧ I b'.buf2 := by
    intro b hb
    obtain ⟨t, ht, hnext⟩ := h b.buf2 hb
    exact ⟨_, hopBody_hop ht, hnext⟩
  intro hl
  exact Loop.not_returns_of_invariant hgoes hq _ (returns_of_leads (b := ⟨q, q, false⟩) hl)

/-- **No chain of links is endless in that directory, and the scan does not return**: it reads the
target of `a/b` relative to the working directory, and comes back to `l`. -/
theorem not_scan_tangled : tangled.fs.Acyclic ∧ ¬ ∃ o, Calls tangled none fresh o := by
  refine ⟨acyclic_tangled, fun ⟨o, ho⟩ => ?_⟩
  obtain ⟨rs, hrs, -⟩ := (calls_scan_iff (by decide) rfl).1 ho
  obtain ⟨e, he⟩ := exists_results_iff.1 ⟨rs, hrs⟩ ⟨['l'], by decide⟩ (by decide)
  refine not_leads_of_invariant (I := fun q => q = ['l'] ∨ q = ['a', '/', 'b']) ?_ (Or.inl rfl) e he
  rintro q (rfl | rfl)
  · exact ⟨['a', '/', 'b'], by decide, by decide⟩
  · exact ⟨['l'], by decide, by decide⟩

/-! ### Sequences of calls -/

/-- A call, in a directory of at most `MAX_FILES_IN_DIR` entries. -/
structure Call where
  env : Env
  path : Option Str
  fits : ∀ names, env.listing = some names → names.length ≤ 256

/-- A process that makes calls, one after the other. -/
def calls : Lts Globals (Call × Outcome) where
  init g := g = fresh
  step g a g' := Calls a.1.env a.1.path g a.2 ∧ g' = a.2.globals

/-- What a call resolves: nothing when it fails early, or on a path that is no link. -/
def Resolved (c : Call) (rs : List Str) : Prop :=
  if c.env.pathMax = -1 then rs = []
  else
    match c.path, c.env.listing with
    | some p, _ => if IsLink c.env.fs p then ∃ r, Resolves c.env.fs p r ∧ rs = [r] else rs = []
    | none, none => rs = []
    | none, some names => Results c.env.fs names rs

/-- **The table describes a call**: it holds what the call has resolved, the first of that is
returned, and no write missed the array. -/
def Described (c : Call) (o : Outcome) : Prop :=
  ∃ rs, Resolved c rs ∧ o.globals.table = rs.map some ∧ o.ret = rs.head? ∧ ∀ i ∈ o.writes, i < 256

/-- **A call will be described**: a path that is asked for is a link, and any other call finds an
empty table. -/
def Clean (g : Globals) (c : Call) : Prop :=
  match c.path with
  | some p => if c.env.pathMax = -1 then g.pos = 0 else IsLink c.env.fs p
  | none => g.pos = 0

/-- An empty table has never been written to. -/
def Blank (g : Globals) : Prop := g.pos = 0 → g = fresh

/-- A call that fails early. -/
theorem described_failed_iff {g : Globals} {c : Call}
    (hrs : ∀ rs, Resolved c rs ↔ rs = []) : Described c ⟨none, g, []⟩ ↔ g.pos = 0 := by
  have htable : g.table = [] ↔ g.pos = 0 := by rw [← g.table_length, List.length_eq_zero_iff]
  simp [Described, hrs, htable]

/-- A scan. -/
theorem described_scan_iff {g : Globals} (hg : Blank g) {c : Call} {names : List Name}
    (hlen : names.length ≤ 256) (hres : ∀ rs, Resolved c rs ↔ Results c.env.fs names rs)
    {rs : List Str} (hrs : Results c.env.fs names rs) :
    Described c (scanOutcome g rs) ↔ g.pos = 0 := by
  constructor
  · rintro ⟨rs', hrs', htable, -⟩
    obtain rfl := hrs.unique ((hres rs').1 hrs')
    have hlen := congrArg List.length htable
    simpa [scanOutcome, Globals.append_pos] using hlen
  · -- an empty table is that of a fresh process, and the results fit into it
    intro hpos
    obtain rfl := hg hpos
    refine ⟨rs, (hres rs).2 hrs, table_fresh_append rs, fresh_append_head rs, ?_⟩
    intro i hi
    have hcount : rs.length ≤ names.length := by
      rw [← hrs.length_eq]
      exact List.length_filter_le _ _
    simp [scanOutcome, fresh] at hi
    omega

/-- A call for one path. -/
theorem described_single_iff {g : Globals} {c : Call} {p e : Str} (hmax : c.env.pathMax ≠ -1)
    (hpath : c.path = some p) (he : Leads c.env.fs p p e) :
    Described c (singleOutcome g (if IsLink c.env.fs p then e else c.env.junk)) ↔
      IsLink c.env.fs p := by
  have hres : ∀ rs, Resolved c rs ↔
      if IsLink c.env.fs p then ∃ r, Resolves c.env.fs p r ∧ rs = [r] else rs = [] := fun rs => by
    simp only [Resolved, if_neg hmax, hpath]
  by_cases hlink : IsLink c.env.fs p
  · simp only [hlink, iff_true, if_true]
    refine ⟨[basename e], ?_, by simp [singleOutcome, Globals.table], rfl, by simp [singleOutcome]⟩
    rw [hres, if_pos hlink]
    exact ⟨_, ⟨hlink, e, he, rfl⟩, rfl⟩
  · simp only [hlink, iff_false, if_false]
    rintro ⟨rs, hrs, htable, -⟩
    rw [hres, if_neg hlink] at hrs
    subst hrs
    simp [singleOutcome, Globals.table] at htable

/-- **One call is described exactly when it is clean.** -/
theorem described_iff_clean {g : Globals} (hg : Blank g) {c : Call} {o : Outcome}
    (h : Calls c.env c.path g o) : Described c o ↔ Clean g c := by
  by_cases hmax : c.env.pathMax = -1
  · obtain rfl := (calls_failed_iff (Or.inl hmax)).1 h
    rw [described_failed_iff fun rs => by simp [Resolved, hmax]]
    cases hpath : c.path <;> simp [Clean, hpath, hmax]
  cases hpath : c.path with
  | some p =>
      rw [hpath] at h
      obtain ⟨e, he, rfl⟩ := (calls_single_iff hmax).1 h
      rw [described_single_iff hmax hpath he]
      simp [Clean, hpath, hmax]
  | none =>
      rw [hpath] at h
      have hclean : Clean g c ↔ g.pos = 0 := by simp [Clean, hpath]
      cases hlist : c.env.listing with
      | none =>
          obtain rfl := (calls_failed_iff (Or.inr ⟨rfl, hlist⟩)).1 h
          rw [described_failed_iff fun rs => by simp [Resolved, hmax, hpath, hlist], hclean]
      | some names =>
          obtain ⟨rs, hrs, rfl⟩ := (calls_scan_iff hmax hlist).1 h
          rw [hclean]
          exact described_scan_iff hg (c.fits names hlist)
            (fun rs => by simp [Resolved, hmax, hpath, hlist]) hrs

/-- A call leaves an untouched table, or one with results. -/
theorem Blank.call {g : Globals} (hg : Blank g) {env : Env} {path : Option Str} {o : Outcome}
    (h : Calls env path g o) : Blank o.globals := by
  by_cases hmax : env.pathMax = -1
  · obtain rfl := (calls_failed_iff (Or.inl hmax)).1 h
    exact hg
  cases path with
  | some p =>
      obtain ⟨e, -, rfl⟩ := (calls_single_iff hmax).1 h
      exact fun hpos => by simp [singleOutcome] at hpos
  | none =>
      cases hlist : env.listing with
      | none =>
          obtain rfl := (calls_failed_iff (Or.inr ⟨rfl, hlist⟩)).1 h
          exact hg
      | some names =>
          obtain ⟨rs, -, rfl⟩ := (calls_scan_iff hmax hlist).1 h
          intro hpos
          simp only [scanOutcome, Globals.append_pos, Nat.add_eq_zero_iff,
            List.length_eq_zero_iff] at hpos
          obtain ⟨hpos, rfl⟩ := hpos
          exact hg hpos

theorem blank {as : List (Call × Outcome)} {g : Globals} (h : calls.Exec as g) : Blank g := by
  refine Lts.Exec.state_invariant (I := Blank) ?_ ?_ h
  · rintro g rfl _
    rfl
  · rintro g a g' hg ⟨ha, rfl⟩
    exact hg.call ha

/-- **The table describes every call of a run exactly when every call of it is clean.** -/
theorem described_iff {as : List (Call × Outcome)} {g : Globals} (h : calls.Exec as g) :
    (∀ a ∈ as, Described a.1 a.2) ↔ (calls.restrict fun g a => Clean g a.1).Exec as g := by
  refine Lts.Exec.forall_iff_restrict (P := fun g a => Clean g a.1) ?_ h
  intro as g a g' hr ha
  exact described_iff_clean (blank hr) ha.1

/-- A scan of that directory with one link, and a call for the link itself. -/
def scanPlain : Call := ⟨plain, none, fun names h => by cases h; decide⟩

def askPlain : Call := ⟨plain, some ['l'], fun names h => by cases h; decide⟩

/-- The link is resolved to `f` from any globals. -/
theorem calls_scanPlain (g : Globals) : Calls plain none g (scanOutcome g [['f']]) :=
  (calls_scan_iff (by decide) rfl).2 ⟨[['f']],
    by
      unfold Results
      rw [links_plain rfl]
      exact .cons ⟨by decide, _, leads_plain, by decide⟩ .nil,
    rfl⟩

theorem calls_askPlain (g : Globals) : Calls plain (some ['l']) g (singleOutcome g ['f']) :=
  (calls_single_iff (by decide)).2 ⟨_, leads_plain, rfl⟩

/-- A scan followed by a call for the link: both are described. -/
theorem described_plain : Described scanPlain (scanOutcome fresh [['f']]) ∧
    Described askPlain (singleOutcome (fresh.append [['f']]) ['f']) := by
  have hrun : (calls.restrict fun g a => Clean g a.1).Exec
      [(scanPlain, scanOutcome fresh [['f']]),
        (askPlain, singleOutcome (fresh.append [['f']]) ['f'])] _ :=
    ⟨fresh, rfl, Lts.Run.cons ⟨⟨calls_scanPlain fresh, rfl⟩, rfl⟩
      (Lts.Run.single ⟨⟨calls_askPlain _, rfl⟩, (by decide : IsLink plain.fs ['l'])⟩)⟩
  have hall := (described_iff hrun.of_restrict).2 hrun
  exact ⟨hall _ List.mem_cons_self, hall _ (List.mem_cons_of_mem _ List.mem_cons_self)⟩

/-- **Two scans in a row: the second one is not described**, its result stands behind that of the
first. -/
theorem not_described_plain : ∃ o o' g, calls.Exec [(scanPlain, o), (scanPlain, o')] g ∧
    ¬ Described scanPlain o' := by
  have hfirst := calls_scanPlain fresh
  have hsecond := calls_scanPlain (fresh.append [['f']])
  refine ⟨_, _, _, ⟨fresh, rfl, Lts.Run.cons ⟨hfirst, rfl⟩ (Lts.Run.single ⟨hsecond, rfl⟩)⟩, ?_⟩
  rw [described_iff_clean (fun hpos => by cases hpos) hsecond]
  exact fun hclean : (fresh.append [['f']]).pos = 0 => by cases hclean

end Realpath
