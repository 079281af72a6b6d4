/-
**The buffers of `myrealpath`** (`assignment_2/realpath.c`).

The function allocates its buffers and does not initialise them.  In the mode for a given path
nothing has been written to `buf1` when the loop ends at once, and its name is taken all the same.

The loop keeps assigning to `buf1` the result of `strcat`, which builds a path in the copy that
`strdup` has made of another one.  From then on the buffer has the size of that copy.  This module
follows the sizes: a run stops at the first write that ends outside the object it writes to.

Main definitions:

* `Realpath.Determined` — what a call returns does not depend on what the buffers hold at first;
* `Realpath.Write`, `Realpath.Mem` — a write to an object, and the buffers with the size of `buf1`;
* `Realpath.memRealpath` — the writes of a call, up to the first one that is outside its object;
* `Realpath.Safe` — no write of a call is;
* `Realpath.Fits` — the targets of the links that the loop comes to fit.

Main results:

* `Realpath.determined_iff` — **for which paths the answer depends on the path alone**;
* `Realpath.run_hopBody_of_memBody` — a loop that stays inside its buffers does what
  `Realpath.hopBody` does;
* `Realpath.safe_iff` — **which calls stay inside their buffers.**
-/

import AupPrograms.RealpathEnds

set_option relaxedAutoImplicit false
set_option autoImplicit false

namespace Realpath

open PathName

/-! ### What the buffers hold at first -/

/-- **What a call for `p` returns does not depend on what the buffers hold at first.** -/
def Determined (env : Env) (p : Str) : Prop :=
  ∀ junk₁ junk₂ g₁ g₂ o₁, Calls { env with junk := junk₁ } (some p) g₁ o₁ →
    ∃ o₂, Calls { env with junk := junk₂ } (some p) g₂ o₂ ∧ o₂.ret = o₁.ret

/-- **For which paths the answer depends on the path alone**: for the links, and for any path if
`pathconf` fails. -/
theorem determined_iff {env : Env} {p : Str} :
    Determined env p ↔ env.pathMax = -1 ∨ IsLink env.fs p := by
  constructor
  · intro h
    by_contra hcond
    rw [not_or] at hcond
    obtain ⟨hmax, hlink⟩ := hcond
    -- the loop ends at once, and what is in the buffer is returned
    have hstop : Leads env.fs p p p := .stop (not_not.1 hlink)
    have hcall : Calls { env with junk := ['a'] } (some p) fresh (singleOutcome fresh ['a']) :=
      (calls_single_iff (by exact hmax)).2 ⟨p, hstop, by simp [hlink]⟩
    obtain ⟨o, ho, hret⟩ := h ['a'] ['b'] fresh fresh _ hcall
    obtain ⟨e, -, rfl⟩ := (calls_single_iff (by exact hmax)).1 ho
    simp only [hlink, if_false, singleOutcome] at hret
    exact absurd hret (by decide)
  · rintro (hmax | hlink) junk₁ junk₂ g₁ g₂ o₁ h₁
    · obtain rfl := (calls_failed_iff (.inl (by exact hmax))).1 h₁
      exact ⟨_, (calls_failed_iff (.inl (by exact hmax))).2 rfl, rfl⟩
    · by_cases hmax : env.pathMax = -1
      · obtain rfl := (calls_failed_iff (.inl (by exact hmax))).1 h₁
        exact ⟨_, (calls_failed_iff (.inl (by exact hmax))).2 rfl, rfl⟩
      · obtain ⟨e, he, rfl⟩ := (calls_single_iff (by exact hmax)).1 h₁
        refine ⟨_, (calls_single_iff (by exact hmax)).2 ⟨e, he, rfl⟩, ?_⟩
        simp only [hlink, if_true, singleOutcome]

/-- A working directory without any files. -/
def vacant : Env where
  fs := .ofLists [[]] [] [] (by decide)
  pathMax := 4096
  listing := some []
  junk := []

/-- **Without any link, a call for `x` returns what happens to be in the buffer.** -/
theorem not_determined_vacant : vacant.fs.Acyclic ∧ ¬ Determined vacant ['x'] := by
  refine ⟨⟨fun l => .intro l ?_⟩, fun h => ?_⟩
  · rintro l' ⟨t, hl, -⟩
    cases hl
  · rcases determined_iff.1 h with hmax | hlink
    · exact absurd hmax (by decide)
    · exact absurd hlink (by decide)

/-! ### Writes -/

/-- A write: where it ends in the object it writes to, and the size of that object. -/
structure Write where
  stop : ℕ
  size : ℕ
  deriving DecidableEq

/-- The write ends inside the object. -/
def Write.Inside (w : Write) : Prop := w.stop ≤ w.size

instance (w : Write) : Decidable w.Inside := inferInstanceAs (Decidable (_ ≤ _))

/-- The first of some writes that ends outside its object. -/
def overrun (ws : List Write) : Option Write := ws.find? fun w => ¬ w.Inside

theorem overrun_eq_none_iff {ws : List Write} : overrun ws = none ↔ ∀ w ∈ ws, w.Inside := by
  simp [overrun]

/-! ### The writes of the program -/

/-- The name of the working directory, as `getcwd` writes it. -/
def cwdName (fs : FileSys) : Str :=
  if fs.cwd = [] then ['/'] else fs.cwd.reverse.flatMap fun c => '/' :: c

/-- `getcwd(currdir, max); strcat(currdir, "/");`, where `getcwd` writes nothing if the name does
not fit, and `strcat` finds the string `junk` then. -/
def currdirWrites (env : Env) (junk : Str) : List Write :=
  let max := env.pathMax.toNat
  if (cwdName env.fs).length + 1 ≤ max then
    [⟨(cwdName env.fs).length + 1, max⟩, ⟨(cwdName env.fs).length + 2, max⟩]
  else [⟨junk.length + 2, max⟩]

/-- The buffers.  `buf1` points to an object of `size` bytes, `buf2` to one of `PATH_MAX` bytes. -/
structure Mem extends Bufs where
  size : ℕ

/-- The string that is duplicated, if a directory is put before the target. -/
def source (base cur target : Str) : Option Str :=
  if contains target ['.', '.'] then
    if contains (dirname cur) ['.'] then none else some cur
  else if contains (dirname base) ['.'] then none
  else some base

/-- The size of the object that `strdup` returns. -/
def dupSize (s : Str) : ℕ := s.length + 1

/-- `strcat(strcat(dirname(strdup(src)), "/"), target)`. -/
def catWrites (src target : Str) : List Write :=
  [⟨(dirname src).length + 2, dupSize src⟩, ⟨(join (dirname src) target).length + 1, dupSize src⟩]

/-- The writes of one iteration: those of `readlink` and of `buf1[size] = '\0'`, of the two calls of
`strcat`, and of `strcpy(buf2, buf1)`. -/
def hopWrites (PATH_MAX : ℕ) (base : Str) (m : Mem) (target : Str) : List Write :=
  [⟨target.length, m.size⟩, ⟨target.length + 1, m.size⟩] ++
    (source base m.buf2 target).elim [] (fun src => catWrites src target) ++
    [⟨(hop base m.buf2 target).length + 1, PATH_MAX⟩]

/-- The size of the object that `buf1` points to then. -/
def sizeAfter (base cur target : Str) (size : ℕ) : ℕ := (source base cur target).elim size dupSize

/-- The buffers after an iteration. -/
def Mem.after (m : Mem) (base target : Str) : Mem :=
  ⟨⟨hop base m.buf2 target, hop base m.buf2 target, true⟩, sizeAfter base m.buf2 target m.size⟩

/-- The body of the loop, which stops at a write that is outside its object.  `readlink` returns at
most `PATH_MAX` bytes. -/
def memBody (PATH_MAX : ℕ) (fs : FileSys) (base : Str) (m : Mem) : Mem ⊕ Except Write Mem :=
  match fs.readlink m.buf2 with
  | none => .inr (.ok m)
  | some target =>
      match overrun (hopWrites PATH_MAX base m (target.take PATH_MAX)) with
      | some w => .inr (.error w)
      | none => .inl (m.after base (target.take PATH_MAX))

/-- `strcpy(buf2, p)` and the loop that is started from `p`. -/
def memEntry (PATH_MAX : ℕ) (fs : FileSys) (fuel : ℕ) (r : Except Write Mem) (p : Str) :
    Option (Except Write Mem) :=
  match r with
  | .error w => some (.error w)
  | .ok m =>
      match overrun [⟨p.length + 1, PATH_MAX⟩] with
      | some w => some (.error w)
      | none => Loop.run (memBody PATH_MAX fs p) fuel ⟨⟨m.buf1, p, false⟩, m.size⟩

/-- The loops from some paths, one after the other, with one object after the other in `buf1`. -/
def memLoops (PATH_MAX : ℕ) (fs : FileSys) (fuel : ℕ) (r : Except Write Mem) (ps : List Str) :
    Option (Except Write Mem) :=
  ps.foldlM (memEntry PATH_MAX fs fuel) r

/-- Both buffers after `malloc(PATH_MAX)`. -/
def Mem.malloc (PATH_MAX : ℕ) (junk : Str) : Mem := ⟨⟨junk, [], false⟩, PATH_MAX⟩

/-- **The writes of `myrealpath`**, up to the first one that is outside its object. -/
def memRealpath (PATH_MAX fuel : ℕ) (env : Env) (junk : Str) (path : Option Str) :
    Option (Except Write Unit) :=
  if env.pathMax = -1 then some (.ok ())
  else
    match overrun (currdirWrites env junk) with
    | some w => some (.error w)
    | none =>
        match path with
        | none =>
            match env.listing with
            | none => some (.ok ())
            | some names =>
                (memLoops PATH_MAX env.fs fuel (.ok (.malloc PATH_MAX env.junk))
                  (names.map Subtype.val)).map fun r => r.map fun _ => ()
        | some p =>
            (memLoops PATH_MAX env.fs fuel (.ok (.malloc PATH_MAX env.junk)) [p]).map
              fun r => r.map fun _ => ()

/-- **Every write of a call is inside its object**, whatever `currdir` holds at first. -/
def Safe (PATH_MAX : ℕ) (env : Env) (path : Option Str) : Prop :=
  ∀ junk fuel w, memRealpath PATH_MAX fuel env junk path ≠ some (.error w)

/-! ### Iterations -/

variable {PATH_MAX : ℕ} {fs : FileSys} {base : Str}

/-- The target `t` fits: it is shorter than the object in `buf1`, and where a directory is put
before it, the path is no longer than the one that was duplicated. -/
def FitsHop (base cur t : Str) (size : ℕ) : Prop :=
  t.length < size ∧ ∀ src, source base cur t = some src →
    (join (dirname src) t).length ≤ src.length

/-- What is put before the target is the directory of the string that is duplicated. -/
theorem hop_eq (base cur t : Str) :
    hop base cur t = (source base cur t).elim t fun src => join (dirname src) t := by
  unfold hop source
  split_ifs <;> rfl

theorem source_eq {base cur t src : Str} (h : source base cur t = some src) :
    src = cur ∨ src = base := by
  unfold source at h
  split_ifs at h
  · exact .inl (Option.some_inj.1 h).symm
  · exact .inr (Option.some_inj.1 h).symm

/-- **The buffers are not larger than `PATH_MAX`**, and neither are the strings to be duplicated. -/
structure Sized (PATH_MAX : ℕ) (base : Str) (m : Mem) : Prop where
  base : base.length < PATH_MAX
  buf2 : m.buf2.length < PATH_MAX
  size : m.size ≤ PATH_MAX

theorem Sized.source_length {m : Mem} (h : Sized PATH_MAX base m) {t src : Str}
    (hsrc : source base m.buf2 t = some src) : src.length < PATH_MAX := by
  rcases source_eq hsrc with rfl | rfl
  · exact h.buf2
  · exact h.base

/-- The next path is shorter than `PATH_MAX`. -/
theorem Sized.hop_length {m : Mem} (h : Sized PATH_MAX base m) {t : Str}
    (ht : FitsHop base m.buf2 t m.size) : (hop base m.buf2 t).length < PATH_MAX := by
  rw [hop_eq]
  cases hsrc : source base m.buf2 t with
  | none => exact ht.1.trans_le h.size
  | some src => exact (ht.2 src hsrc).trans_lt (h.source_length hsrc)

/-- **The writes of an iteration are inside their objects exactly when the target fits.** -/
theorem hopWrites_inside_iff {m : Mem} (h : Sized PATH_MAX base m) (t : Str) :
    (∀ w ∈ hopWrites PATH_MAX base m t, w.Inside) ↔ FitsHop base m.buf2 t m.size := by
  constructor
  · intro hin
    refine ⟨hin ⟨t.length + 1, m.size⟩ (by simp [hopWrites]), ?_⟩
    intro src hsrc
    have hcat := hin ⟨(join (dirname src) t).length + 1, dupSize src⟩
      (by simp [hopWrites, hsrc, catWrites])
    exact Nat.le_of_succ_le_succ hcat
  · intro hfits w hw
    have hlast := h.hop_length hfits
    have hfirst := hfits.1
    cases hsrc : source base m.buf2 t with
    | none =>
        simp only [hopWrites, hsrc, Option.elim_none, List.append_nil, List.mem_append,
          List.mem_cons, List.not_mem_nil, or_false] at hw
        rcases hw with (rfl | rfl) | rfl <;> simp only [Write.Inside] <;> omega
    | some src =>
        have hcat := hfits.2 src hsrc
        have hjoin : (join (dirname src) t).length = (dirname src).length + 1 + t.length := by
          simp [join]
          omega
        simp only [hopWrites, hsrc, Option.elim_some, catWrites, List.mem_append, List.mem_cons,
          List.not_mem_nil, or_false] at hw
        rcases hw with ((rfl | rfl) | (rfl | rfl)) | rfl <;>
          simp only [Write.Inside, dupSize] <;> omega

/-- A target that is cut off at `PATH_MAX` fits no better. -/
theorem fitsHop_take {m : Mem} (h : Sized PATH_MAX base m) (t : Str) :
    FitsHop base m.buf2 (t.take PATH_MAX) m.size ↔ FitsHop base m.buf2 t m.size := by
  rcases Nat.lt_or_ge t.length PATH_MAX with hlt | hge
  · rw [List.take_of_length_le hlt.le]
  · have hsize := h.size
    have hlong : ¬ (t.take PATH_MAX).length < m.size := by
      rw [List.length_take_of_le hge]
      omega
    exact iff_of_false (fun hfits => hlong hfits.1) fun hfits => by
      have hlt := hfits.1
      omega

theorem memBody_stop {m : Mem} (ht : fs.readlink m.buf2 = none) :
    memBody PATH_MAX fs base m = .inr (.ok m) := by simp only [memBody, ht]

/-- **An iteration whose target fits** goes on, with buffers that are not larger than `PATH_MAX`. -/
theorem memBody_of_fits {m : Mem} (h : Sized PATH_MAX base m) {t : Str}
    (ht : fs.readlink m.buf2 = some t) (hfits : FitsHop base m.buf2 t m.size) :
    memBody PATH_MAX fs base m = .inl (m.after base t) ∧
      Sized PATH_MAX base (m.after base t) := by
  have htake : t.take PATH_MAX = t := List.take_of_length_le (hfits.1.le.trans h.size)
  have hnone : overrun (hopWrites PATH_MAX base m t) = none :=
    overrun_eq_none_iff.2 ((hopWrites_inside_iff h t).2 hfits)
  refine ⟨by simp only [memBody, ht, htake, hnone], h.base, h.hop_length hfits, ?_⟩
  change sizeAfter base m.buf2 t m.size ≤ PATH_MAX
  unfold sizeAfter
  cases hsrc : source base m.buf2 t with
  | none => exact h.size
  | some src => exact h.source_length hsrc

/-- **An iteration whose target does not fit** writes outside an object. -/
theorem memBody_of_not_fits {m : Mem} (h : Sized PATH_MAX base m) {t : Str}
    (ht : fs.readlink m.buf2 = some t) (hfits : ¬ FitsHop base m.buf2 t m.size) :
    ∃ w, memBody PATH_MAX fs base m = .inr (.error w) := by
  cases hover : overrun (hopWrites PATH_MAX base m (t.take PATH_MAX)) with
  | none =>
      rw [overrun_eq_none_iff, hopWrites_inside_iff h, fitsHop_take h] at hover
      exact absurd hover hfits
  | some w => exact ⟨w, by simp only [memBody, ht, hover]⟩

/-- **A loop that stays inside its buffers does what `hopBody` does.** -/
theorem run_hopBody_of_memBody {fuel : ℕ} {m m' : Mem} (h : Sized PATH_MAX base m)
    (hrun : Loop.run (memBody PATH_MAX fs base) fuel m = some (.ok m')) :
    Loop.run (hopBody fs base) fuel m.toBufs = some m'.toBufs ∧ Sized PATH_MAX base m' := by
  induction fuel generalizing m with
  | zero => cases hrun
  | succ fuel ih =>
      cases ht : fs.readlink m.buf2 with
      | none =>
          rw [Loop.run_succ_inr (memBody_stop ht)] at hrun
          cases hrun
          exact ⟨Loop.run_succ_inr (hopBody_stop ht) fuel, h⟩
      | some t =>
          by_cases hfits : FitsHop base m.buf2 t m.size
          · obtain ⟨hbody, hnext⟩ := memBody_of_fits h ht hfits
            rw [Loop.run_succ_inl hbody] at hrun
            rw [Loop.run_succ_inl (hopBody_hop ht)]
            exact ih hnext hrun
          · obtain ⟨w, hw⟩ := memBody_of_not_fits h ht hfits
            rw [Loop.run_succ_inr hw] at hrun
            cases hrun

/-! ### The loop -/

/-- The loop that is started from `base`, with `buf1` in an object of `size` bytes, comes to `q`
with `buf1` in one of `n` bytes. -/
inductive VisitsWith (fs : FileSys) (base : Str) (size : ℕ) : Str → ℕ → Prop
  | start : VisitsWith fs base size base size
  | hop {q t : Str} {n : ℕ} (h : VisitsWith fs base size q n) (ht : fs.readlink q = some t) :
      VisitsWith fs base size (hop base q t) (sizeAfter base q t n)

/-- **The targets of the links that the loop comes to fit.** -/
def Fits (fs : FileSys) (base : Str) (size : ℕ) : Prop :=
  ∀ q n t, VisitsWith fs base size q n → fs.readlink q = some t → FitsHop base q t n

/-- Where the targets fit, the loop ends with an object of a size that it comes to. -/
theorem visits_of_fits {m : Mem} (h : Sized PATH_MAX base m) (hm : m.buf2 = base)
    (hfits : Fits fs base m.size) {r : Except Write Mem}
    (hr : Loop.Returns (memBody PATH_MAX fs base) m r) :
    ∃ m', r = .ok m' ∧ VisitsWith fs base m.size m'.buf2 m'.size ∧ ¬ IsLink fs m'.buf2 ∧
      Sized PATH_MAX base m' := by
  refine hr.of_invariant
    (I := fun m' => VisitsWith fs base m.size m'.buf2 m'.size ∧ Sized PATH_MAX base m')
    (R := fun r => ∃ m', r = .ok m' ∧ VisitsWith fs base m.size m'.buf2 m'.size ∧
      ¬ IsLink fs m'.buf2 ∧ Sized PATH_MAX base m') ?_ ?_ ⟨by rw [hm]; exact .start, h⟩
  · rintro m₁ m₂ ⟨hv, hs⟩ hbody
    cases ht : fs.readlink m₁.buf2 with
    | none =>
        rw [memBody_stop ht] at hbody
        cases hbody
    | some t =>
        obtain ⟨hnext, hs'⟩ := memBody_of_fits hs ht (hfits _ _ t hv ht)
        rw [hnext] at hbody
        obtain rfl := Sum.inl.inj hbody
        exact ⟨hv.hop ht, hs'⟩
  · rintro m₁ r ⟨hv, hs⟩ hbody
    cases ht : fs.readlink m₁.buf2 with
    | none =>
        rw [memBody_stop ht] at hbody
        obtain rfl := Sum.inr.inj hbody
        exact ⟨m₁, rfl, hv, fun hlink => hlink ht, hs⟩
    | some t =>
        rw [(memBody_of_fits hs ht (hfits _ _ t hv ht)).1] at hbody
        cases hbody

/-- A loop that stays inside its buffers comes to all these paths. -/
theorem reaches_of_visits {m : Mem} (h : Sized PATH_MAX base m) (hm : m.buf2 = base)
    (hsafe : ∀ w, ¬ Loop.Returns (memBody PATH_MAX fs base) m (.error w)) {q : Str} {n : ℕ}
    (hv : VisitsWith fs base m.size q n) :
    ∃ m', Loop.Reaches (memBody PATH_MAX fs base) m m' ∧ m'.buf2 = q ∧ m'.size = n ∧
      Sized PATH_MAX base m' := by
  induction hv with
  | start => exact ⟨m, .refl, hm, rfl, h⟩
  | @hop q t n _ ht ih =>
      obtain ⟨m', hreach, rfl, rfl, hs⟩ := ih
      by_cases hfits : FitsHop base m'.buf2 t m'.size
      · obtain ⟨hnext, hs'⟩ := memBody_of_fits hs ht hfits
        exact ⟨_, hreach.tail hnext, rfl, rfl, hs'⟩
      · obtain ⟨w, hw⟩ := memBody_of_not_fits hs ht hfits
        exact absurd (Loop.returns_iff_reaches.2 ⟨m', hreach, hw⟩) (hsafe w)

/-- **A loop stays inside its buffers exactly when the targets fit.** -/
theorem loop_safe_iff {m : Mem} (h : Sized PATH_MAX base m) (hm : m.buf2 = base) :
    (∀ w, ¬ Loop.Returns (memBody PATH_MAX fs base) m (.error w)) ↔ Fits fs base m.size := by
  constructor
  · intro hsafe q n t hv ht
    obtain ⟨m', hreach, rfl, rfl, hs⟩ := reaches_of_visits h hm hsafe hv
    by_contra hfits
    obtain ⟨w, hw⟩ := memBody_of_not_fits hs ht hfits
    exact hsafe w (Loop.returns_iff_reaches.2 ⟨m', hreach, hw⟩)
  · intro hfits w hr
    obtain ⟨m', heq, -⟩ := visits_of_fits h hm hfits hr
    cases heq

/-! ### One loop after the other -/

theorem memEntry_mono (n k : ℕ) (r : Except Write Mem) (p : Str) (r' : Except Write Mem)
    (hle : n ≤ k) (h : memEntry PATH_MAX fs n r p = some r') :
    memEntry PATH_MAX fs k r p = some r' := by
  unfold memEntry at h ⊢
  cases r with
  | error w => exact h
  | ok m =>
      cases hover : overrun [⟨p.length + 1, PATH_MAX⟩] with
      | some w => simpa only [hover] using h
      | none =>
          simp only [hover] at h ⊢
          exact Loop.run_mono hle h

/-- A path that fits into `buf2` is where the loop starts. -/
theorem memEntry_of_lt {p : Str} (hp : p.length < PATH_MAX) (fuel : ℕ) (m : Mem) :
    memEntry PATH_MAX fs fuel (.ok m) p
      = Loop.run (memBody PATH_MAX fs p) fuel ⟨⟨m.buf1, p, false⟩, m.size⟩ := by
  have hnone : overrun [⟨p.length + 1, PATH_MAX⟩] = none := by
    rw [overrun_eq_none_iff, List.forall_mem_singleton]
    exact hp
  simp only [memEntry, hnone]

/-- A longer one is written past the end of it. -/
theorem memEntry_of_ge {p : Str} (hp : ¬ p.length < PATH_MAX) (fuel : ℕ) (m : Mem) :
    memEntry PATH_MAX fs fuel (.ok m) p = some (.error ⟨p.length + 1, PATH_MAX⟩) := by
  have hsome : overrun [⟨p.length + 1, PATH_MAX⟩] = some ⟨p.length + 1, PATH_MAX⟩ := by
    have hout : ¬ (⟨p.length + 1, PATH_MAX⟩ : Write).Inside := hp
    simp [overrun, hout]
  simp only [memEntry, hsome]

/-- **A loop that stays inside its buffers does what the model without sizes does** for an entry of
the directory. -/
theorem scanEntry_of_memEntry {fuel : ℕ} {m m' : Mem} (hsize : m.size ≤ PATH_MAX) {name : Name}
    (h : memEntry PATH_MAX fs fuel (.ok m) name = some (.ok m')) {s : Scan}
    (hs : s.buf1 = m.buf1) :
    scanEntry fs fuel s name = some (scanned s m'.toBufs) ∧ m'.size ≤ PATH_MAX := by
  by_cases hp : name.val.length < PATH_MAX
  · have hstart : Sized PATH_MAX name ⟨⟨m.buf1, name, false⟩, m.size⟩ := ⟨hp, hp, hsize⟩
    rw [memEntry_of_lt hp] at h
    obtain ⟨hrun, hend⟩ := run_hopBody_of_memBody hstart h
    refine ⟨?_, hend.size⟩
    rw [scanEntry, hs, hrun, Option.map_some]
  · rw [memEntry_of_ge hp] at h
    cases h

/-- After a write outside an object there is nothing more. -/
theorem memLoops_error (fuel : ℕ) (w : Write) (ps : List Str) :
    memLoops PATH_MAX fs fuel (.error w) ps = some (.error w) := by
  induction ps with
  | nil => rfl
  | cons p ps ih => exact ih

/-- The first loop, and the others. -/
theorem memLoops_cons {r r' : Except Write Mem} {p : Str} {ps : List Str} :
    (∃ fuel, memLoops PATH_MAX fs fuel r (p :: ps) = some r') ↔
      ∃ r₁, (∃ fuel, memEntry PATH_MAX fs fuel r p = some r₁) ∧
        ∃ fuel, memLoops PATH_MAX fs fuel r₁ ps = some r' :=
  Loop.exists_foldlM_cons memEntry_mono

/-- The same for a whole directory. -/
theorem foldlM_of_memLoops {fuel : ℕ} {names : List Name} {m m' : Mem} (hsize : m.size ≤ PATH_MAX)
    (h : memLoops PATH_MAX fs fuel (.ok m) (names.map Subtype.val) = some (.ok m')) {s : Scan}
    (hs : s.buf1 = m.buf1) :
    ∃ s', names.foldlM (scanEntry fs fuel) s = some s' ∧ s'.buf1 = m'.buf1 := by
  induction names generalizing m s with
  | nil =>
      cases h
      exact ⟨s, rfl, hs⟩
  | cons n names ih =>
      rw [List.map_cons, memLoops, List.foldlM_cons] at h
      obtain ⟨r₁, h₁, h₂⟩ := Option.bind_eq_some_iff.1 h
      cases r₁ with
      | error w =>
          have herror : memLoops PATH_MAX fs fuel (.error w) (names.map Subtype.val)
              = some (.error w) := memLoops_error fuel w _
          rw [memLoops, h₂] at herror
          cases herror
      | ok m₁ =>
          obtain ⟨hentry, hsize₁⟩ := scanEntry_of_memEntry hsize h₁ hs
          have hbuf : (scanned s m₁.toBufs).buf1 = m₁.buf1 := by
            unfold scanned
            split_ifs <;> rfl
          obtain ⟨s', hs', hbuf'⟩ := ih hsize₁ h₂ hbuf
          refine ⟨s', ?_, hbuf'⟩
          rw [List.foldlM_cons, hentry]
          exact hs'

/-- **The paths fit into `buf2`, and the targets that the loops come to fit**: each loop finds the
object in `buf1` that the one before it has left there. -/
def FitsAll (PATH_MAX : ℕ) (fs : FileSys) : ℕ → List Str → Prop
  | _, [] => True
  | size, p :: ps =>
      p.length < PATH_MAX ∧ Fits fs p size ∧
        ∀ q n, VisitsWith fs p size q n → ¬ IsLink fs q → FitsAll PATH_MAX fs n ps

/-- **The loops stay inside their buffers exactly when everything fits.** -/
theorem loops_safe_iff {m : Mem} (hsize : m.size ≤ PATH_MAX) {ps : List Str} :
    (∀ w, ¬ ∃ fuel, memLoops PATH_MAX fs fuel (.ok m) ps = some (.error w)) ↔
      FitsAll PATH_MAX fs m.size ps := by
  induction ps generalizing m with
  | nil =>
      refine iff_of_true ?_ trivial
      rintro w ⟨fuel, h⟩
      cases h
  | cons p ps ih =>
      by_cases hp : p.length < PATH_MAX
      · have hsized : Sized PATH_MAX p ⟨⟨m.buf1, p, false⟩, m.size⟩ := ⟨hp, hp, hsize⟩
        have hloop : (∀ w, ¬ Loop.Returns (memBody PATH_MAX fs p)
            ⟨⟨m.buf1, p, false⟩, m.size⟩ (.error w)) ↔ Fits fs p m.size := loop_safe_iff hsized rfl
        have hentry : ∀ r₁, (∃ fuel, memEntry PATH_MAX fs fuel (.ok m) p = some r₁) ↔
            Loop.Returns (memBody PATH_MAX fs p) ⟨⟨m.buf1, p, false⟩, m.size⟩ r₁ := fun r₁ => by
          simp only [memEntry_of_lt hp, Loop.Returns]
        simp only [memLoops_cons, hentry]
        constructor
        · intro hsafe
          have hsafe₁ : ∀ w, ¬ Loop.Returns (memBody PATH_MAX fs p)
              ⟨⟨m.buf1, p, false⟩, m.size⟩ (.error w) := fun w hw =>
            hsafe w ⟨.error w, hw, 0, memLoops_error 0 w ps⟩
          refine ⟨hp, hloop.1 hsafe₁, fun q n hv hend => ?_⟩
          obtain ⟨m', hreach, rfl, rfl, hs'⟩ := reaches_of_visits hsized rfl hsafe₁ hv
          refine (ih hs'.size).1 fun w hw => hsafe w ⟨.ok m', ?_, hw⟩
          exact Loop.returns_iff_reaches.2 ⟨m', hreach, memBody_stop (not_not.1 hend)⟩
        · rintro ⟨-, hfits, hrest⟩ w ⟨r₁, hr₁, hw⟩
          obtain ⟨m', rfl, hv, hend, hs'⟩ := visits_of_fits hsized rfl hfits hr₁
          exact (ih hs'.size).2 (hrest _ _ hv hend) w hw
      · refine iff_of_false (fun hsafe => ?_) fun hfits => hp hfits.1
        exact hsafe _ (memLoops_cons.2 ⟨_, ⟨0, memEntry_of_ge hp 0 m⟩, 0, memLoops_error 0 _ ps⟩)

/-! ### Calls -/

/-- The name of the working directory, a slash and the terminator fit into `currdir`. -/
theorem currdir_safe_iff {env : Env} :
    (∀ junk, overrun (currdirWrites env junk) = none) ↔
      (cwdName env.fs).length + 2 ≤ env.pathMax.toNat := by
  simp only [overrun_eq_none_iff, currdirWrites]
  split_ifs with hfits
  · simp [Write.Inside]
    omega
  · refine iff_of_false (fun h => ?_) (by omega)
    have hlong := h (List.replicate env.pathMax.toNat 'a') _ List.mem_cons_self
    simp only [Write.Inside, List.length_replicate] at hlong
    omega

/-- What a call does once `currdir` is written. -/
theorem memRealpath_eq {env : Env} {junk : Str} (hmax : env.pathMax ≠ -1)
    (hcurr : overrun (currdirWrites env junk) = none) (fuel : ℕ) (path : Option Str) :
    memRealpath PATH_MAX fuel env junk path
      = (memLoops PATH_MAX env.fs fuel (.ok (.malloc PATH_MAX env.junk)) (starts env path)).map
          fun r => r.map fun _ => () := by
  cases path with
  | some p => simp only [memRealpath, if_neg hmax, hcurr, starts]
  | none =>
      cases hlist : env.listing with
      | some names =>
          simp only [memRealpath, if_neg hmax, hcurr, starts, hlist, Option.getD_some]
      | none => simp [memRealpath, hmax, hcurr, starts, hlist, memLoops, Except.map]

theorem memRealpath_error_iff {env : Env} {junk : Str} {path : Option Str} {w : Write}
    (hmax : env.pathMax ≠ -1) (hcurr : overrun (currdirWrites env junk) = none) :
    (∃ fuel, memRealpath PATH_MAX fuel env junk path = some (.error w)) ↔
      ∃ fuel, memLoops PATH_MAX env.fs fuel (.ok (.malloc PATH_MAX env.junk)) (starts env path)
        = some (.error w) := by
  have hmap : ∀ r : Option (Except Write Mem),
      (r.map fun r => r.map fun _ => ()) = some (.error w) ↔ r = some (.error w) := by
    rintro (_ | _ | _) <;> simp [Except.map]
  simp only [memRealpath_eq hmax hcurr, hmap]

/-- **Which calls stay inside their buffers**: those where `pathconf` fails, and those where the
name of the working directory fits into `currdir` and the paths and the targets that the loops come
to fit. -/
theorem safe_iff {env : Env} {path : Option Str} :
    Safe PATH_MAX env path ↔ env.pathMax = -1 ∨
      (cwdName env.fs).length + 2 ≤ env.pathMax.toNat ∧
        FitsAll PATH_MAX env.fs PATH_MAX (starts env path) := by
  by_cases hmax : env.pathMax = -1
  · refine iff_of_true (fun junk fuel w h => ?_) (.inl hmax)
    simp only [memRealpath, if_pos hmax] at h
    cases h
  · have hloops : _ ↔ FitsAll PATH_MAX env.fs PATH_MAX (starts env path) :=
      loops_safe_iff (m := .malloc PATH_MAX env.junk) (Nat.le_refl PATH_MAX)
    rw [or_iff_right hmax, ← currdir_safe_iff]
    constructor
    · intro hsafe
      have hcurr : ∀ junk, overrun (currdirWrites env junk) = none := by
        intro junk
        cases hover : overrun (currdirWrites env junk) with
        | none => rfl
        | some w =>
            refine absurd ?_ (hsafe junk 0 w)
            simp only [memRealpath, if_neg hmax, hover]
      refine ⟨hcurr, hloops.1 fun w hw => ?_⟩
      obtain ⟨fuel, h⟩ := (memRealpath_error_iff hmax (hcurr [])).2 hw
      exact hsafe [] fuel w h
    · rintro ⟨hcurr, hfits⟩ junk fuel w h
      exact hloops.2 hfits w ((memRealpath_error_iff hmax (hcurr junk)).1 ⟨fuel, h⟩)

/-- **A call that has made all its writes returns** what the model without sizes returns. -/
theorem exists_myrealpath_of_memRealpath {fuel : ℕ} {env : Env} {junk : Str} {path : Option Str}
    (h : memRealpath PATH_MAX fuel env junk path = some (.ok ())) (g : Globals) :
    ∃ o, myrealpath fuel env path g = some o := by
  have hmap : ∀ r : Option (Except Write Mem), (r.map fun r => r.map fun _ => ()) = some (.ok ()) →
      ∃ m, r = some (.ok m) := by
    rintro (_ | _ | m) hr
    · cases hr
    · cases hr
    · exact ⟨m, rfl⟩
  by_cases hmax : env.pathMax = -1
  · exact ⟨⟨none, g, []⟩, by simp only [myrealpath, if_pos hmax]⟩
  · cases hcurr : overrun (currdirWrites env junk) with
    | some w =>
        simp only [memRealpath, if_neg hmax, hcurr] at h
        cases h
    | none =>
        cases path with
        | none =>
            cases hlist : env.listing with
            | none => exact ⟨⟨none, g, []⟩, by simp only [myrealpath, if_neg hmax, hlist]⟩
            | some names =>
                simp only [memRealpath, if_neg hmax, hcurr, hlist] at h
                obtain ⟨m, hm⟩ := hmap _ h
                obtain ⟨s, hs, -⟩ := foldlM_of_memLoops (Nat.le_refl PATH_MAX) hm
                  (s := ⟨env.junk, g, []⟩) rfl
                exact ⟨_, by simp only [myrealpath, if_neg hmax, hlist, scan, hs]; rfl⟩
        | some p =>
            simp only [memRealpath, if_neg hmax, hcurr] at h
            obtain ⟨m, hm⟩ := hmap _ h
            rw [memLoops, List.foldlM_cons] at hm
            obtain ⟨r, hr, hm'⟩ := Option.bind_eq_some_iff.1 hm
            cases hm'
            by_cases hp : p.length < PATH_MAX
            · have hstart : Sized PATH_MAX p ⟨⟨env.junk, p, false⟩, PATH_MAX⟩ := ⟨hp, hp, le_rfl⟩
              rw [memEntry_of_lt hp] at hr
              have hrun := (run_hopBody_of_memBody hstart hr).1
              exact ⟨_, by simp only [myrealpath, if_neg hmax, single, hrun]; rfl⟩
            · rw [memEntry_of_ge hp] at hr
              cases hr

/-- The link `/d/l` to `abc`. -/
def slim : Env where
  fs := .ofLists [[], [['d']]] [([['l'], ['d']], ['a', 'b', 'c'])] [] (by decide)
  pathMax := 4096
  listing := none
  junk := []

/-- **The path `/d/abc` is built in the five bytes of a copy of `/d/l`.** -/
theorem not_safe_slim : slim.fs.FiniteLinks ∧ slim.fs.Acyclic ∧
    ¬ Safe 4096 slim (some ['/', 'd', '/', 'l']) := by
  refine ⟨FileSys.finiteLinks_ofLists (by decide), ?_, fun h => h [] 1 ⟨7, 5⟩ rfl⟩
  -- what the only link is followed to is none
  refine ⟨fun l => .intro l ?_⟩
  rintro l' ⟨t, hl, ht⟩
  refine .intro l' ?_
  rintro l'' ⟨t', hl', -⟩
  have hmem := FileSys.mem_of_lookup hl
  have hmem' := FileSys.mem_of_lookup hl'
  simp only [List.mem_singleton, Prod.mk.injEq] at hmem hmem'
  obtain ⟨rfl, rfl⟩ := hmem
  obtain ⟨rfl, rfl⟩ := hmem'
  exact absurd ht (by decide)

end Realpath
