/-
**The program around `myrealpath`** (`assignment_2/realpath.c`).

`main` passes its argument to `myrealpath`, or a null pointer when there is none, and prints the
table that the call leaves.  A scan of the working directory does for each link what a run of the
program for that link does: it prints what these runs print, one after the other.  The two differ on
a directory without links, where the scan reports a failure; and the scan goes on with the buffer
that the entry before has left, so that it may write outside its buffers where the single runs do
not.  There is nothing to be said of a run after such a write.

Main definitions:

* `Realpath.guarded` — the call, as long as its writes are inside their buffers;
* `Realpath.printLoop`, `Realpath.main` — the loop over the table, and the program;
* `Realpath.Prints` — the program ends and has printed these lines.

Main results:

* `Realpath.fits_of_fitsAll` — where a scan stays inside its buffers, so do the single runs;
* `Realpath.prints_scan_iff`, `Realpath.prints_single_iff` — what the two modes print;
* `Realpath.scan_prints_iff` — **a scan that stays inside its buffers prints what the runs for its
  links print**, and ends exactly when all of them do.
-/

import AupPrograms.RealpathBuffers
import AupPrograms.RealpathTable

set_option relaxedAutoImplicit false
set_option autoImplicit false

namespace Realpath

open PathName

/-! ### The program -/

/-- The lines that do not come from the table. -/
def usage : Str := "Usage: ./realpath <filename> [OPTIONAL]".toList

def failed : Str := "Realpath failed".toList

/-- `for (int i = 0; i < pos; i++) { printf("%s\n", strs[i]); strs[i]++; }`, with the rounds that
are left.  There are no lines when it reads behind the array, or prints a null pointer. -/
def printLoop (g : Globals) (i : ℕ) : ℕ → Option (List Str)
  | 0 => some []
  | left + 1 =>
      if i < 256 then
        match g.strs i with
        | none => none
        | some s =>
            let strs := Function.update g.strs i (some (s.drop 1))
            (printLoop { g with strs := strs } (i + 1) left).map (s :: ·)
      else none

/-- What follows the call. -/
def report (str : Option Str) (g : Globals) : Option (List Str) :=
  match str with
  | none => some [failed]
  | some _ => printLoop g 0 g.pos

/-- The call of `myrealpath` in a process with buffers of `PATH_MAX` bytes, `currdir` being what is
in the buffer for the working directory at first.  There is no outcome when a write is outside of
its buffer. -/
def guarded (PATH_MAX fuel : ℕ) (env : Env) (currdir : Str) (path : Option Str) : Option Outcome :=
  match memRealpath PATH_MAX fuel env currdir path with
  | some (.ok _) => myrealpath fuel env path fresh
  | _ => none

/-- What a process starts with: the contents of the buffer for the working directory, and the value
that `str` happens to have. -/
structure Start where
  currdir : Str
  str : Option Str

/-- **`main`**, with the arguments behind the name of the program. -/
def main (PATH_MAX fuel : ℕ) (env : Env) (st : Start) : List Str → Option (List Str)
  | [] =>
      (guarded PATH_MAX fuel env st.currdir none).bind fun o => report o.ret o.globals
  | [path] =>
      (guarded PATH_MAX fuel env st.currdir (some path)).bind fun o => report o.ret o.globals
  | _ => (report st.str fresh).map (usage :: ·)

/-- The program ends, and has printed these lines. -/
def Prints (PATH_MAX : ℕ) (env : Env) (st : Start) (args : List Str) (out : List Str) : Prop :=
  ∃ fuel, main PATH_MAX fuel env st args = some out

/-! ### The loop -/

/-- **What the loop prints**: the entries from `i` on, as they were before it.  It never comes back
to an entry that it has changed. -/
theorem printLoop_eq_some_iff {g : Globals} {i left : ℕ} {out : List Str} :
    printLoop g i left = some out ↔
      (List.range' i left).map g.strs = out.map some ∧ (left = 0 ∨ i + left ≤ 256) := by
  induction left generalizing g i out with
  | zero =>
      rw [printLoop, Option.some.injEq]
      cases out <;> simp
  | succ left ih =>
      have hkeep : ∀ s, (List.range' (i + 1) left).map (Function.update g.strs i s)
          = (List.range' (i + 1) left).map g.strs := fun s =>
        List.map_congr_left fun j hj => Function.update_of_ne
          (by have := (List.mem_range'_1.1 hj).1; omega) _ _
      rw [printLoop, List.range'_succ, List.map_cons]
      by_cases hi : i < 256
      · cases hs : g.strs i with
        | none => cases out <;> simp [hi]
        | some s =>
            simp only [hi, if_true, Option.map_eq_some_iff, ih, hkeep]
            constructor
            · rintro ⟨out, ⟨hout, hleft⟩, rfl⟩
              exact ⟨by rw [hout, List.map_cons], Or.inr (by omega)⟩
            · rintro ⟨hout, hleft⟩
              cases out with
              | nil => cases hout
              | cons t out =>
                  obtain ⟨hhead, htail⟩ := List.cons.inj hout
                  cases hhead
                  exact ⟨out, ⟨htail, by omega⟩, rfl⟩
      · simp only [hi, if_false]
        constructor
        · intro h
          cases h
        · rintro ⟨-, hleft⟩
          omega

/-- The loop over a table with results prints them, as long as they are in the array. -/
theorem printLoop_table_iff {g : Globals} {rs : List Str} (h : g.table = rs.map some)
    {out : List Str} : printLoop g 0 g.pos = some out ↔ out = rs ∧ rs.length ≤ 256 := by
  have hlen : g.pos = rs.length := by simpa using congrArg List.length h
  have htable : (List.range' 0 g.pos).map g.strs = rs.map some := by
    rw [← List.range_eq_range']
    exact h
  have hbound : (g.pos = 0 ∨ 0 + g.pos ≤ 256) ↔ rs.length ≤ 256 := by omega
  rw [printLoop_eq_some_iff, htable, hbound]
  constructor
  · rintro ⟨hmap, hfit⟩
    exact ⟨(List.map_injective_iff.2 (Option.some_injective _) hmap).symm, hfit⟩
  · rintro ⟨rfl, hfit⟩
    exact ⟨rfl, hfit⟩

/-! ### Inside the buffers -/

variable {PATH_MAX : ℕ} {fs : FileSys}

/-- A larger buffer is visited with larger sizes. -/
theorem exists_visitsWith_le {base q : Str} {size size' n : ℕ} (hle : size ≤ size')
    (h : VisitsWith fs base size' q n) : ∃ m, VisitsWith fs base size q m ∧ m ≤ n := by
  induction h with
  | start => exact ⟨size, .start, hle⟩
  | @hop q t n _ ht ih =>
      obtain ⟨m, hm, hmn⟩ := ih
      refine ⟨_, hm.hop ht, ?_⟩
      unfold sizeAfter
      cases source base q t with
      | none => exact hmn
      | some src => exact le_rfl

/-- What fits into a buffer fits into a larger one. -/
theorem Fits.mono {base : Str} {size size' : ℕ} (hle : size ≤ size') (h : Fits fs base size) :
    Fits fs base size' := by
  intro q n t hv ht
  obtain ⟨m, hm, hmn⟩ := exists_visitsWith_le hle hv
  obtain ⟨hlt, hsrc⟩ := h q m t hm ht
  exact ⟨hlt.trans_le hmn, hsrc⟩

/-- The loop comes to the path where it ends. -/
theorem exists_visitsWith_of_leads {base q e : Str} {size n : ℕ} (hv : VisitsWith fs base size q n)
    (h : Leads fs base q e) : ∃ m, VisitsWith fs base size e m ∧ ¬ IsLink fs e := by
  induction h generalizing n with
  | stop h => exact ⟨n, hv, fun hlink => hlink h⟩
  | hop h _ ih => exact ih (hv.hop h)

/-- **Where loops one after the other stay inside their buffers, and end, so does each of them in
buffers of its own.** -/
theorem fits_of_fitsAll {ps : List Str} {size : ℕ} (hsize : size ≤ PATH_MAX)
    (hends : ∀ p ∈ ps, ∃ e, Leads fs p p e) (h : FitsAll PATH_MAX fs size ps) :
    ∀ p ∈ ps, p.length < PATH_MAX ∧ Fits fs p PATH_MAX := by
  induction ps generalizing size with
  | nil =>
      intro p hp
      cases hp
  | cons p ps ih =>
      obtain ⟨hlt, hfits, hrest⟩ := h
      have hsized : Sized PATH_MAX p ⟨⟨[], p, false⟩, size⟩ := ⟨hlt, hlt, hsize⟩
      obtain ⟨e, he⟩ := hends p List.mem_cons_self
      obtain ⟨n, hv, hend⟩ := exists_visitsWith_of_leads .start he
      -- the loop leaves an object that is no larger than `PATH_MAX`
      obtain ⟨m', -, rfl, rfl, hm'⟩ :=
        reaches_of_visits hsized rfl ((loop_safe_iff hsized rfl).2 hfits) hv
      intro p' hp'
      rcases List.mem_cons.1 hp' with rfl | hp'
      · exact ⟨hlt, hfits.mono hsize⟩
      · exact ih hm'.size (fun p'' hp'' => hends p'' (List.mem_cons_of_mem p hp''))
          (hrest _ _ hv hend) p' hp'

/-- A loop that ends comes to its end or to a write outside its buffers. -/
theorem exists_returns_memBody {base q e : Str} (h : Leads fs base q e) {m : Mem}
    (hm : Sized PATH_MAX base m) (hq : m.buf2 = q) :
    ∃ r, Loop.Returns (memBody PATH_MAX fs base) m r := by
  induction h generalizing m with
  | stop h =>
      subst hq
      exact ⟨_, (Loop.returns_of_leaves (memBody_stop h)).2 rfl⟩
  | @hop q t e h _ ih =>
      subst hq
      by_cases hfits : FitsHop base m.buf2 t m.size
      · obtain ⟨hnext, hsized⟩ := memBody_of_fits hm h hfits
        obtain ⟨r, hr⟩ := ih hsized rfl
        exact ⟨r, (Loop.returns_of_goesOn hnext).2 hr⟩
      · obtain ⟨w, hw⟩ := memBody_of_not_fits hm h hfits
        exact ⟨_, (Loop.returns_of_leaves hw).2 rfl⟩

theorem exists_memLoops {ps : List Str} (hends : ∀ p ∈ ps, ∃ e, Leads fs p p e) {m : Mem}
    (hsize : m.size ≤ PATH_MAX) : ∃ r fuel, memLoops PATH_MAX fs fuel (.ok m) ps = some r := by
  induction ps generalizing m with
  | nil => exact ⟨.ok m, 0, rfl⟩
  | cons p ps ih =>
      by_cases hp : p.length < PATH_MAX
      · have hsized : Sized PATH_MAX p ⟨⟨m.buf1, p, false⟩, m.size⟩ := ⟨hp, hp, hsize⟩
        obtain ⟨e, he⟩ := hends p List.mem_cons_self
        obtain ⟨r, fuel, hr⟩ := exists_returns_memBody he hsized rfl
        have hentry : ∃ fuel, memEntry PATH_MAX fs fuel (.ok m) p = some r :=
          ⟨fuel, by rw [memEntry_of_lt hp, hr]⟩
        cases r with
        | error w => exact ⟨.error w, memLoops_cons.2 ⟨_, hentry, 0, memLoops_error 0 w ps⟩⟩
        | ok m' =>
            have hsized' := (run_hopBody_of_memBody hsized hr).2
            obtain ⟨r', hr'⟩ :=
              ih (fun p' hp' => hends p' (List.mem_cons_of_mem p hp')) hsized'.size
            exact ⟨r', memLoops_cons.2 ⟨_, hentry, hr'⟩⟩
      · exact ⟨_, memLoops_cons.2 ⟨_, ⟨0, memEntry_of_ge hp 0 m⟩, 0, memLoops_error 0 _ ps⟩⟩

/-! ### The call -/

variable {env : Env} {path : Option Str}

/-- A call has one outcome. -/
theorem Calls.unique {g : Globals} {o o' : Outcome} (h : Calls env path g o)
    (h' : Calls env path g o') : o = o' := by
  by_cases hmax : env.pathMax = -1
  · rw [(calls_failed_iff (Or.inl hmax)).1 h, (calls_failed_iff (Or.inl hmax)).1 h']
  cases path with
  | some p =>
      obtain ⟨e, he, rfl⟩ := (calls_single_iff hmax).1 h
      obtain ⟨e', he', rfl⟩ := (calls_single_iff hmax).1 h'
      rw [he.unique he']
  | none =>
      cases hlist : env.listing with
      | none =>
          rw [(calls_failed_iff (Or.inr ⟨rfl, hlist⟩)).1 h,
            (calls_failed_iff (Or.inr ⟨rfl, hlist⟩)).1 h']
      | some names =>
          obtain ⟨rs, hrs, rfl⟩ := (calls_scan_iff hmax hlist).1 h
          obtain ⟨rs', hrs', rfl⟩ := (calls_scan_iff hmax hlist).1 h'
          rw [hrs.unique hrs']

/-- A call that returns, and stays inside its buffers, makes all its writes. -/
theorem exists_memRealpath {o : Outcome} (hsafe : Safe PATH_MAX env path)
    (h : Calls env path fresh o) (currdir : Str) :
    ∃ fuel, memRealpath PATH_MAX fuel env currdir path = some (.ok ()) := by
  by_cases hmax : env.pathMax = -1
  · exact ⟨0, by simp only [memRealpath, if_pos hmax]⟩
  cases hcurr : overrun (currdirWrites env currdir) with
  | some w =>
      refine absurd ?_ (hsafe currdir 0 w)
      simp only [memRealpath, if_neg hmax, hcurr]
  | none =>
      obtain ⟨r, fuel, hr⟩ := exists_memLoops (exists_calls_iff.1 ⟨o, h⟩)
        (m := .malloc PATH_MAX env.junk) (Nat.le_refl PATH_MAX)
      have hcall : memRealpath PATH_MAX fuel env currdir path = _ :=
        memRealpath_eq hmax hcurr fuel path
      rw [hr] at hcall
      cases r with
      | error w => exact absurd hcall (hsafe currdir fuel w)
      | ok m => exact ⟨fuel, hcall⟩

/-- **Inside its buffers, a call does what the model without sizes does.** -/
theorem guarded_iff_of_safe {o : Outcome} (hsafe : Safe PATH_MAX env path) (currdir : Str) :
    (∃ fuel, guarded PATH_MAX fuel env currdir path = some o) ↔ Calls env path fresh o := by
  constructor
  · rintro ⟨fuel, h⟩
    refine ⟨fuel, ?_⟩
    unfold guarded at h
    split at h
    · exact h
    · cases h
  · intro h
    obtain ⟨fuel, hmem⟩ := exists_memRealpath hsafe h currdir
    obtain ⟨o', ho'⟩ := exists_myrealpath_of_memRealpath hmem fresh
    obtain rfl := h.unique ⟨fuel, ho'⟩
    exact ⟨fuel, by simp only [guarded, hmem, ho']⟩

/-! ### What the program prints -/

variable {st : Start} {out : List Str}

/-- A run that prints something has made the call. -/
theorem exists_calls_of_prints (h : Prints PATH_MAX env st path.toList out) :
    ∃ o, Calls env path fresh o := by
  obtain ⟨fuel, h⟩ := h
  have hguarded : ∃ o, guarded PATH_MAX fuel env st.currdir path = some o := by
    cases path with
    | none | some p =>
        obtain ⟨o, ho, -⟩ := Option.bind_eq_some_iff.1 h
        exact ⟨o, ho⟩
  obtain ⟨o, ho⟩ := hguarded
  unfold guarded at ho
  split at ho
  · exact ⟨o, fuel, ho⟩
  · cases ho

/-- A run with at most one argument makes the call, and reports what it leaves. -/
theorem prints_call_iff (hsafe : Safe PATH_MAX env path) :
    Prints PATH_MAX env st path.toList out ↔
      ∃ o, Calls env path fresh o ∧ report o.ret o.globals = some out := by
  have hmain : ∀ fuel, main PATH_MAX fuel env st path.toList
      = (guarded PATH_MAX fuel env st.currdir path).bind fun o => report o.ret o.globals :=
    fun fuel => by cases path <;> rfl
  simp only [Prints, hmain, Option.bind_eq_some_iff, ← guarded_iff_of_safe hsafe st.currdir]
  constructor
  · rintro ⟨fuel, o, ho, hout⟩
    exact ⟨o, ⟨fuel, ho⟩, hout⟩
  · rintro ⟨o, ⟨fuel, ho⟩, hout⟩
    exact ⟨fuel, o, ho, hout⟩

/-- What is printed after a scan with the results `rs`. -/
theorem report_scanOutcome_iff {rs : List Str} :
    report (scanOutcome fresh rs).ret (scanOutcome fresh rs).globals = some out ↔
      if rs = [] then out = [failed] else out = rs ∧ rs.length ≤ 256 := by
  have hret : (scanOutcome fresh rs).ret = rs.head? := fresh_append_head rs
  rw [hret]
  cases rs with
  | nil => simp [report, eq_comm]
  | cons r rs => simp [report, scanOutcome, printLoop_table_iff (table_fresh_append (r :: rs))]

/-- **What a scan prints**: the name of each link, or a failure when there is none. -/
theorem prints_scan_iff {names : List Name} (hmax : env.pathMax ≠ -1)
    (hlist : env.listing = some names) (hsafe : Safe PATH_MAX env none) :
    Prints PATH_MAX env st [] out ↔ ∃ rs, Results env.fs names rs ∧
      if rs = [] then out = [failed] else out = rs ∧ rs.length ≤ 256 := by
  refine (prints_call_iff hsafe).trans ?_
  constructor
  · rintro ⟨o, ho, hout⟩
    obtain ⟨rs, hrs, rfl⟩ := (calls_scan_iff hmax hlist).1 ho
    exact ⟨rs, hrs, report_scanOutcome_iff.1 hout⟩
  · rintro ⟨rs, hrs, hout⟩
    exact ⟨_, (calls_scan_iff hmax hlist).2 ⟨rs, hrs, rfl⟩, report_scanOutcome_iff.2 hout⟩

/-- **What a run for one path prints**: one name, which comes from an uninitialised buffer when the
path is no link. -/
theorem prints_single_iff {p : Str} (hmax : env.pathMax ≠ -1)
    (hsafe : Safe PATH_MAX env (some p)) :
    Prints PATH_MAX env st [p] out ↔ ∃ e, Leads env.fs p p e ∧
      out = [basename (if IsLink env.fs p then e else env.junk)] := by
  have hreport : ∀ s : Str, report (singleOutcome fresh s).ret (singleOutcome fresh s).globals
      = some [basename s] := fun s => by
    have htable : (singleOutcome fresh s).globals.table = [basename s].map some := by
      simp [singleOutcome, Globals.table]
    exact (printLoop_table_iff htable).2 ⟨rfl, by simp⟩
  refine (prints_call_iff hsafe).trans ?_
  constructor
  · rintro ⟨o, ho, hout⟩
    obtain ⟨e, he, rfl⟩ := (calls_single_iff hmax).1 ho
    rw [hreport] at hout
    exact ⟨e, he, (Option.some.inj hout).symm⟩
  · rintro ⟨e, he, rfl⟩
    exact ⟨_, (calls_single_iff hmax).2 ⟨e, he, rfl⟩, hreport _⟩

/-- A run for a link prints the name it is resolved to. -/
theorem prints_link_iff {p : Str} (hmax : env.pathMax ≠ -1) (hsafe : Safe PATH_MAX env (some p))
    (hlink : IsLink env.fs p) :
    Prints PATH_MAX env st [p] out ↔ ∃ r, Resolves env.fs p r ∧ out = [r] := by
  simp only [prints_single_iff hmax hsafe, hlink, if_true]
  constructor
  · rintro ⟨e, he, rfl⟩
    exact ⟨_, ⟨hlink, e, he, rfl⟩, rfl⟩
  · rintro ⟨r, ⟨-, e, he, rfl⟩, rfl⟩
    exact ⟨e, he, rfl⟩

/-! ### A scan and the runs for its links -/

/-- What is in the buffers at first does not matter for their sizes. -/
theorem safe_junk_iff (junk : Str) :
    Safe PATH_MAX { env with junk := junk } path ↔ Safe PATH_MAX env path := by
  rw [safe_iff, safe_iff]
  rfl

/-- **Where a scan stays inside its buffers and ends, so do the runs for its entries.** -/
theorem safe_of_scan {names : List Name} (hmax : env.pathMax ≠ -1)
    (hlist : env.listing = some names) (hsafe : Safe PATH_MAX env none)
    (hends : ∀ n ∈ names, ∃ e, Leads env.fs n n e) {n : Name} (hn : n ∈ names) :
    Safe PATH_MAX env (some n) := by
  have hstarts : starts env none = names.map Subtype.val := by
    simp only [starts, if_neg hmax, hlist, Option.getD_some]
  have hone : starts env (some n) = [n.val] := by simp only [starts, if_neg hmax]
  obtain ⟨hcwd, hfits⟩ := (safe_iff.1 hsafe).resolve_left hmax
  rw [hstarts] at hfits
  have hall := fits_of_fitsAll le_rfl (fun p hp => by
    obtain ⟨m, hm, rfl⟩ := List.mem_map.1 hp
    exact hends m hm) hfits
  obtain ⟨hlt, hn'⟩ := hall n (List.mem_map_of_mem hn)
  refine safe_iff.2 (Or.inr ⟨hcwd, ?_⟩)
  rw [hone]
  exact ⟨hlt, hn', fun _ _ _ _ => trivial⟩

/-- What the runs for some links print, whatever is in their uninitialised variables. -/
theorem prints_links_iff {ns : List Name} (hmax : env.pathMax ≠ -1)
    (hsafe : ∀ n ∈ ns, Safe PATH_MAX env (some n)) (hlinks : ∀ n ∈ ns, IsLink env.fs n)
    (junk : Name → Str) (st : Name → Start) {outs : List (List Str)} :
    List.Forall₂ (fun (n : Name) o => Prints PATH_MAX { env with junk := junk n } (st n) [n] o)
        ns outs ↔
      ∃ rs, List.Forall₂ (fun (n : Name) r => Resolves env.fs n r) ns rs ∧
        outs = rs.map fun r => [r] := by
  have hlink : ∀ n ∈ ns, ∀ out, Prints PATH_MAX { env with junk := junk n } (st n) [n] out ↔
      ∃ r, Resolves env.fs n r ∧ out = [r] := fun n hn out =>
    prints_link_iff (by exact hmax) ((safe_junk_iff (junk n)).2 (hsafe n hn))
      (by exact hlinks n hn)
  clear hsafe hlinks
  induction ns generalizing outs with
  | nil =>
      constructor
      · intro h
        cases h
        exact ⟨[], .nil, rfl⟩
      · rintro ⟨rs, hrs, rfl⟩
        cases hrs
        exact .nil
  | cons n ns ih =>
      have hn := hlink n List.mem_cons_self
      have hns := fun m hm => hlink m (List.mem_cons_of_mem n hm)
      constructor
      · rintro (_ | ⟨ho, houts⟩)
        obtain ⟨r, hr, rfl⟩ := (hn _).1 ho
        obtain ⟨rs, hrs, rfl⟩ := (ih hns).1 houts
        exact ⟨r :: rs, .cons hr hrs, rfl⟩
      · rintro ⟨rs, hrs, rfl⟩
        cases hrs with
        | cons hr hrs => exact .cons ((hn _).2 ⟨_, hr, rfl⟩) ((ih hns).2 ⟨_, hrs, rfl⟩)

/-- The entries whose loops end are those where the links do. -/
theorem leads_of_links {fs : FileSys} {names : List Name}
    (h : ∀ n ∈ links fs names, ∃ e, Leads fs n n e) : ∀ n ∈ names, ∃ e, Leads fs n n e := by
  intro n hn
  by_cases hlink : IsLink fs n
  · exact h n (List.mem_filter.2 ⟨hn, by simpa using hlink⟩)
  · exact ⟨n, .stop (not_not.1 hlink)⟩

/-- A list of runs that print something. -/
theorem leads_of_prints {ns : List Name} (hmax : env.pathMax ≠ -1) (junk : Name → Str)
    (st : Name → Start) {outs : List (List Str)}
    (h : List.Forall₂ (fun (n : Name) o =>
      Prints PATH_MAX { env with junk := junk n } (st n) [n] o) ns outs) :
    ∀ n ∈ ns, ∃ e, Leads env.fs n n e := by
  intro n hn
  obtain ⟨i, hi, rfl⟩ := List.getElem_of_mem hn
  have hprints := h.get hi (h.length_eq ▸ hi)
  have hcall : ∃ o, Calls { env with junk := junk ns[i] } (some ns[i].val) fresh o :=
    exists_calls_of_prints hprints
  obtain ⟨o, ho⟩ := hcall
  obtain ⟨e, he, -⟩ := (calls_single_iff (by exact hmax)).1 ho
  exact ⟨e, he⟩

/-- **A scan that stays inside its buffers prints, in a directory with links, what the runs of the
program for these links print, one after the other**, and ends exactly when all of them do; without
links, it reports a failure. -/
theorem scan_prints_iff {names : List Name} (hmax : env.pathMax ≠ -1)
    (hlist : env.listing = some names) (hfew : (links env.fs names).length ≤ 256)
    (hsafe : Safe PATH_MAX env none) (junk : Name → Str) (starts : Name → Start) :
    Prints PATH_MAX env st [] out ↔
      if links env.fs names = [] then out = [failed]
      else ∃ outs, List.Forall₂ (fun (n : Name) o =>
        Prints PATH_MAX { env with junk := junk n } (starts n) [n] o) (links env.fs names) outs ∧
          out = outs.flatten := by
  have hlinks : ∀ n ∈ links env.fs names, IsLink env.fs n := fun n hn => by
    simpa using (List.mem_filter.1 hn).2
  by_cases hends : ∀ n ∈ links env.fs names, ∃ e, Leads env.fs n n e
  · have hsafes : ∀ n ∈ links env.fs names, Safe PATH_MAX env (some n) := fun n hn =>
      safe_of_scan hmax hlist hsafe (leads_of_links hends) (List.mem_filter.1 hn).1
    have hflat : ∀ rs : List Str, (rs.map fun r => [r]).flatten = rs := fun rs => by
      rw [← List.flatMap_def, List.flatMap_singleton']
    simp only [prints_scan_iff hmax hlist hsafe, prints_links_iff hmax hsafes hlinks junk starts]
    split_ifs with hnone
    · -- the only results are none
      have hres : ∀ rs, Results env.fs names rs ↔ rs = [] := fun rs => by
        rw [Results, hnone, List.forall₂_nil_left_iff]
      simp [hres]
    · -- a result for each link, so there are some
      have hne : ∀ {rs}, Results env.fs names rs → rs ≠ [] := fun hrs hrs' =>
        hnone (List.eq_nil_of_length_eq_zero (by rw [hrs.length_eq, hrs', List.length_nil]))
      constructor
      · rintro ⟨rs, hrs, hout⟩
        rw [if_neg (hne hrs)] at hout
        exact ⟨_, ⟨rs, hrs, rfl⟩, by rw [hflat, hout.1]⟩
      · rintro ⟨_, ⟨rs, hrs, rfl⟩, rfl⟩
        have hlen := hrs.length_eq
        refine ⟨rs, hrs, ?_⟩
        rw [if_neg (hne hrs), hflat]
        exact ⟨rfl, hlen ▸ hfew⟩
  · -- neither the scan nor all of the runs end
    refine iff_of_false (fun hscan => hends ?_) fun hruns => hends ?_
    · obtain ⟨rs, hrs, -⟩ := (prints_scan_iff hmax hlist hsafe).1 hscan
      exact exists_results_iff.1 ⟨rs, hrs⟩
    · split_ifs at hruns with hnone
      · rw [hnone]
        intro n hn
        cases hn
      · obtain ⟨outs, houts, -⟩ := hruns
        exact leads_of_prints hmax junk starts houts

/-- A call that makes all its writes, whatever is in the buffer for the working directory, stays
inside its buffers: it does not make them again with other ones. -/
theorem safe_of_memRealpath (fuel : ℕ)
    (h : ∀ currdir, memRealpath PATH_MAX fuel env currdir path = some (.ok ())) :
    Safe PATH_MAX env path := by
  intro currdir fuel' w hw
  have hok := h currdir
  by_cases hmax : env.pathMax = -1
  · simp only [memRealpath, if_pos hmax] at hw
    cases hw
  cases hcurr : overrun (currdirWrites env currdir) with
  | some w' =>
      simp only [memRealpath, if_neg hmax, hcurr] at hok
      cases hok
  | none =>
      have hmono : ∀ n m r, n ≤ m → memRealpath PATH_MAX n env currdir path = some r →
          memRealpath PATH_MAX m env currdir path = some r := by
        intro n m r hle hr
        rw [memRealpath_eq hmax hcurr, Option.map_eq_some_iff] at hr ⊢
        obtain ⟨r', hr', rfl⟩ := hr
        exact ⟨r', Loop.foldlM_mono memEntry_mono hle hr', rfl⟩
      cases Loop.unique_of_mono hmono ⟨fuel, hok⟩ ⟨fuel', hw⟩

/-- In the directory with the link `l` to `f`, the scan prints `f` as the run for `l` does. -/
theorem scan_prints_plain : Prints 4096 plain ⟨[], none⟩ [] [['f']] := by
  have hlinks := links_plain rfl
  have hscan : Safe 4096 plain none := safe_of_memRealpath 2 fun _ => rfl
  have hl : Resolves plain.fs ['l'] ['f'] := ⟨by decide, _, leads_plain, by decide⟩
  have hsingle : Safe 4096 plain (some ['l']) := safe_of_memRealpath 2 fun _ => rfl
  refine (scan_prints_iff (by decide) rfl (by rw [hlinks]; decide) hscan (fun _ => [])
    fun _ => ⟨[], none⟩).2 ?_
  rw [hlinks, if_neg (List.cons_ne_nil _ _)]
  exact ⟨_, .cons ((prints_link_iff (by decide) hsingle hl.1).2 ⟨_, hl, rfl⟩) .nil, rfl⟩

end Realpath
