/-
ReSchema/CorpusFailure.lean

What a build that raises does to the corpus.

The manifest and the stamp are written last, so a build that raises leaves both
as they were (`build_error`).  The binaries are compiled and stripped in place,
though, so by then some of them may have been replaced, and the old manifest
gets loaded over the new binaries.

What is at a path afterwards is what the commands that ran on it left there
(`slotLeft`), and the manifest tells the truth if and only if each of them went
in a way that keeps its entry true (`LeavesTrue`, `loadsTrue_iff_leavesTrue`).
-/
import ReSchema.CorpusManifest

namespace ReSchema

open Py

/-! ### Batches -/

section Batch

variable {effect : Slot → Option Binary → Option Binary} {dies : Slot → Bool}

/-- A batch of commands, one for each slot, up to the first that takes the container down. -/
def runBatch (effect : Slot → Option Binary → Option Binary) (dies : Slot → Bool) :
    List Slot → Files → Files
  | [], fs => fs
  | s :: plan, fs =>
      let fs' := Function.update fs s.path (effect s (fs s.path))
      if dies s then fs' else runBatch effect dies plan fs'

/-- The slots whose commands run. -/
def commandsRun (dies : Slot → Bool) : List Slot → List Slot
  | [] => []
  | s :: plan => s :: if dies s then [] else commandsRun dies plan

theorem commandsRun_of_alive {plan : List Slot} (h : ∀ s ∈ plan, dies s = false) :
    commandsRun dies plan = plan := by
  induction plan with
  | nil => rfl
  | cons s plan ih =>
      obtain ⟨hs, hplan⟩ := List.forall_mem_cons.mp h
      rw [commandsRun, hs, if_neg Bool.false_ne_true, ih hplan]

/-- A path that belongs to none of the slots is left alone. -/
theorem runBatch_other (plan : List Slot) (fs : Files) {p : PyStr}
    (h : ∀ s ∈ plan, s.path ≠ p) : runBatch effect dies plan fs p = fs p := by
  induction plan generalizing fs with
  | nil => rfl
  | cons s plan ih =>
      obtain ⟨hs, hplan⟩ := List.forall_mem_cons.mp h
      have hp : Function.update fs s.path (effect s (fs s.path)) p = fs p :=
        Function.update_of_ne hs.symm ..
      rw [runBatch]
      split
      · exact hp
      · rw [ih _ hplan, hp]

/-- At the path of a slot there is what its command left there.  A slot that comes twice has the
same command twice. -/
theorem runBatch_at {s : Slot} (hidem : ∀ b, effect s (effect s b) = effect s b) (plan : List Slot)
    (fs : Files) (h : ∀ t ∈ plan, t.path = s.path → t = s) :
    runBatch effect dies plan fs s.path =
      if s ∈ commandsRun dies plan then effect s (fs s.path) else fs s.path := by
  induction plan generalizing fs with
  | nil => rfl
  | cons t plan ih =>
      obtain ⟨ht, hplan⟩ := List.forall_mem_cons.mp h
      rw [runBatch, commandsRun]
      by_cases hts : t = s
      · -- the command of the slot itself
        subst hts
        rw [if_pos List.mem_cons_self]
        have hself : Function.update fs t.path (effect t (fs t.path)) t.path =
            effect t (fs t.path) := Function.update_self ..
        split
        · exact hself
        · rw [ih _ hplan, hself, hidem, ite_self]
      · -- the command of another slot
        have hother : Function.update fs t.path (effect t (fs t.path)) s.path = fs s.path :=
          Function.update_of_ne (fun he => hts (ht he.symm)) ..
        split
        · rw [if_neg (by simpa using Ne.symm hts)]
          exact hother
        · rw [ih _ hplan, hother]
          simp only [List.mem_cons, Ne.symm hts, false_or]

end Batch

/-! ### What the commands leave -/

/-- What a command leaves in the place of a file. -/
def Residue.effect (residue : Residue) (old : Option Binary) : Option Binary := residue.getD old

def CompileOutcome.effect (o : CompileOutcome) (old : Option Binary) : Option Binary :=
  match o with
  | .wrote image => some ⟨image, false⟩
  | .failed _ _ residue => residue.effect old
  | .died residue => residue.effect old

def CompileOutcome.dies : CompileOutcome → Bool
  | .died _ => true
  | _ => false

def StripOutcome.effect (o : StripOutcome) (old : Option Binary) : Option Binary :=
  match o with
  | .stripped => old.map fun b => { b with stripped := true }
  | .failed _ _ residue => residue.effect old
  | .died residue => residue.effect old

def StripOutcome.dies : StripOutcome → Bool
  | .died _ => true
  | _ => false

theorem Residue.effect_effect (residue : Residue) (old : Option Binary) :
    residue.effect (residue.effect old) = residue.effect old := by
  cases residue <;> rfl

theorem CompileOutcome.effect_effect (o : CompileOutcome) (old : Option Binary) :
    o.effect (o.effect old) = o.effect old := by
  cases o with
  | wrote image => rfl
  | failed rc hrc residue => exact residue.effect_effect old
  | died residue => exact residue.effect_effect old

theorem StripOutcome.effect_effect (o : StripOutcome) (old : Option Binary) :
    o.effect (o.effect old) = o.effect old := by
  cases o with
  | stripped => cases old <;> rfl
  | failed rc hrc residue => exact residue.effect_effect old
  | died residue => exact residue.effect_effect old

theorem Files.leave_eq_update (fs : Files) (path : PyStr) (residue : Residue) :
    fs.leave path residue = Function.update fs path (residue.effect (fs path)) := by
  cases residue with
  | none => exact (Function.update_eq_self path fs).symm
  | some file => rfl

/-- The first batch. -/
theorem compileJobs_files (c : Container) (plan : List Slot) (fs : Files) :
    (compileJobs c plan fs).1 =
      runBatch (fun s => (c.compile s).effect) (fun s => (c.compile s).dies) plan fs := by
  induction plan generalizing fs with
  | nil => rfl
  | cons s plan ih =>
      rw [compileJobs, runBatch]
      rcases h : c.compile s with image | ⟨rc, hrc, residue⟩ | residue
      · exact ih _
      · show (compileJobs c plan (fs.leave s.path residue)).1 = _
        rw [ih, Files.leave_eq_update]
        rfl
      · exact Files.leave_eq_update fs s.path residue

/-- The second batch. -/
theorem stripFiles_files (c : Container) (plan : List Slot) (fs : Files) :
    (stripFiles c plan fs).1 =
      runBatch (fun s => (c.strip s).effect) (fun s => (c.strip s).dies) plan fs := by
  induction plan generalizing fs with
  | nil => rfl
  | cons s plan ih =>
      rw [stripFiles, runBatch]
      rcases h : c.strip s with - | ⟨rc, hrc, residue⟩ | residue
      · exact ih _
      · show (stripFiles c plan (fs.leave s.path residue)).1 = _
        rw [ih, Files.leave_eq_update]
        rfl
      · exact Files.leave_eq_update fs s.path residue

/-! ### How far the build comes -/

theorem checkRound_ok_iff {fault failed : BuildError} {reported : Bool} {r : Option (List ℤ)} :
    checkRound fault failed reported r = .ok () ↔
      reported = true ∧ ∃ rcs, r = some rcs ∧ ∀ rc ∈ rcs, rc = 0 := by
  refine ⟨fun h => ⟨?_, checkRound_ok h⟩, ?_⟩
  · cases r with
    | none => simp [checkRound] at h
    | some rcs =>
        cases reported with
        | false => simp [checkRound] at h
        | true => rfl
  · rintro ⟨rfl, rcs, rfl, hzero⟩
    have hany : rcs.any (· ≠ 0) = false := by simpa using hzero
    rw [checkRound, hany]
    rfl

theorem compileJobs_zero_iff {c : Container} {plan : List Slot} {fs : Files} :
    (∃ rcs, (compileJobs c plan fs).2 = some rcs ∧ ∀ rc ∈ rcs, rc = 0) ↔
      ∀ s ∈ plan, ∃ image, c.compile s = .wrote image := by
  induction plan generalizing fs with
  | nil => simp [compileJobs]
  | cons s plan ih =>
      rw [List.forall_mem_cons, compileJobs]
      rcases h : c.compile s with image | ⟨rc, hrc, residue⟩ | residue
      · rw [← @ih (fs.leave s.path (some (some ⟨image, false⟩)))]
        simp only [Option.map_eq_some_iff, CompileOutcome.wrote.injEq, exists_eq', true_and]
        constructor
        · rintro ⟨_, ⟨rcs, hrcs, rfl⟩, hzero⟩
          exact ⟨rcs, hrcs, fun rc hm => hzero rc (List.mem_cons_of_mem _ hm)⟩
        · rintro ⟨rcs, hrcs, hzero⟩
          exact ⟨0 :: rcs, ⟨rcs, hrcs, rfl⟩, List.forall_mem_cons.mpr ⟨rfl, hzero⟩⟩
      · apply iff_of_false
        · rintro ⟨rcs, hrcs, hzero⟩
          obtain ⟨rcs', -, rfl⟩ := Option.map_eq_some_iff.mp hrcs
          exact hrc (hzero rc List.mem_cons_self)
        · rintro ⟨⟨image, h'⟩, -⟩
          cases h'
      · apply iff_of_false
        · rintro ⟨rcs, hrcs, -⟩
          cases hrcs
        · rintro ⟨⟨image, h'⟩, -⟩
          cases h'

/-- The paths tell the slots of a plan apart, whatever its seeds are called. -/
theorem eq_of_path {s t : Slot} (hs : s.compiler ∈ compilers ∧ s.opt ∈ opts)
    (ht : t.compiler ∈ compilers ∧ t.opt ∈ opts) (h : s.path = t.path) : s = t := by
  have htails : ∀ cc ∈ compilers, ∀ opt ∈ opts, ∀ strip : Bool, ∀ cc' ∈ compilers, ∀ opt' ∈ opts,
      ∀ strip' : Bool, Slot.path ⟨[], cc, opt, strip⟩ <:+ Slot.path ⟨[], cc', opt', strip'⟩ →
        cc = cc' ∧ opt = opt' ∧ strip = strip' := by
    decide +kernel
  obtain ⟨seed, cc, opt, strip⟩ := s
  obtain ⟨seed', cc', opt', strip'⟩ := t
  have hpath : ∀ seed cc opt strip, Slot.path ⟨seed, cc, opt, strip⟩ =
      seed ++ Slot.path ⟨[], cc, opt, strip⟩ := by
    intro seed cc opt strip
    simp only [Slot.path, Slot.text, List.append_assoc, List.nil_append]
  rw [hpath seed, hpath seed'] at h
  have hsame : cc = cc' ∧ opt = opt' ∧ strip = strip' := by
    have hsuf := List.suffix_append seed (Slot.path ⟨[], cc, opt, strip⟩)
    have hsuf' := List.suffix_append seed' (Slot.path ⟨[], cc', opt', strip'⟩)
    rw [← h] at hsuf'
    rcases List.suffix_or_suffix_of_suffix hsuf hsuf' with hle | hle
    · exact htails cc hs.1 opt hs.2 strip cc' ht.1 opt' ht.2 strip' hle
    · obtain ⟨h1, h2, h3⟩ := htails cc' ht.1 opt' ht.2 strip' cc hs.1 opt hs.2 strip hle
      exact ⟨h1.symm, h2.symm, h3.symm⟩
  obtain ⟨rfl, rfl, rfl⟩ := hsame
  rw [List.append_cancel_right h]

theorem eq_of_path_of_mem {code : Code} {flt : Filters} {s t : Slot} (hs : s ∈ planOf code flt)
    (ht : t ∈ planOf code flt) (h : s.path = t.path) : s = t :=
  eq_of_path (mem_slots.mp (mem_planOf.mp hs).1).2 (mem_slots.mp (mem_planOf.mp ht).1).2 h

/-- The command wrote a binary that has some of the functions of its seed. -/
def CompileOutcome.captures (o : CompileOutcome) (seed : PyStr) : Bool :=
  match o with
  | .wrote image => (corpusFuncs.lookup seed).any fun names => captured names image.symbols ≠ []
  | _ => false

/-- The build comes to the strips: the first report arrived, and every compiler wrote a binary with
some of the functions. -/
def reachesStrip (code : Code) (c : Container) (flt : Filters) : Bool :=
  c.compileReported && (planOf code flt).all fun s => (c.compile s).captures s.seed

theorem CompileOutcome.captures_iff {o : CompileOutcome} {seed : PyStr} :
    o.captures seed = true ↔ ∃ image names, o = .wrote image ∧
      corpusFuncs.lookup seed = some names ∧ captured names image.symbols ≠ [] := by
  cases o with
  | wrote image =>
      rw [captures, Option.any_eq_true]
      constructor
      · rintro ⟨names, hnames, h⟩
        exact ⟨image, names, rfl, hnames, of_decide_eq_true h⟩
      · rintro ⟨image', names, himage, hnames, h⟩
        cases himage
        exact ⟨names, hnames, decide_eq_true h⟩
  | failed rc hrc residue => simp [captures]
  | died residue => simp [captures]

section Error

variable {code : Code} {c : Container} {flt : Filters} {root root' : Root} {err : BuildError}

/-- What the first batch leaves at the path of a slot. -/
theorem compileJobs_at {s : Slot} (hs : s ∈ planOf code flt) (fs : Files) :
    (compileJobs c (planOf code flt) fs).1 s.path =
      if s ∈ commandsRun (fun t => (c.compile t).dies) (planOf code flt)
      then (c.compile s).effect (fs s.path) else fs s.path := by
  rw [compileJobs_files]
  exact runBatch_at (fun b => (c.compile s).effect_effect b) _ fs
    fun t ht hpath => eq_of_path_of_mem ht hs hpath

/-- What the second batch leaves there. -/
theorem stripFiles_at {s : Slot} (hs : s ∈ planOf code flt) (fs : Files) :
    (stripFiles c ((planOf code flt).filter Slot.strip) fs).1 s.path =
      if s ∈ commandsRun (fun t => (c.strip t).dies) ((planOf code flt).filter Slot.strip)
      then (c.strip s).effect (fs s.path) else fs s.path := by
  rw [stripFiles_files]
  exact runBatch_at (fun b => (c.strip s).effect_effect b) _ fs
    fun t ht hpath => eq_of_path_of_mem (List.mem_of_mem_filter ht) hs hpath

/-- The entries can be read after the first batch just when the build comes to the strips. -/
theorem reachesStrip_iff {fs : Files} :
    reachesStrip code c flt = true ↔
      checkRound .compileFault .compileFailed c.compileReported
        (compileJobs c (planOf code flt) fs).2 = .ok () ∧
      ∃ built, (planOf code flt).mapM (entryOf (compileJobs c (planOf code flt) fs).1) =
        .ok built := by
  -- where all compile, each file is the image of its own slot
  have hwrote : (∀ s ∈ planOf code flt, ∃ image, c.compile s = .wrote image) →
      ∀ s ∈ planOf code flt, ∀ image, c.compile s = .wrote image →
        (compileJobs c (planOf code flt) fs).1 s.path = some ⟨image, false⟩ := by
    intro hall s hs image hc
    have halive : ∀ t ∈ planOf code flt, (c.compile t).dies = false := by
      intro t ht
      obtain ⟨image', hc'⟩ := hall t ht
      rw [hc']
      rfl
    rw [compileJobs_at hs, commandsRun_of_alive halive, if_pos hs, hc]
    rfl
  have hread : ∀ s image, (compileJobs c (planOf code flt) fs).1 s.path = some ⟨image, false⟩ →
      ((∃ e, entryOf (compileJobs c (planOf code flt) fs).1 s = .ok e) ↔
        ∃ names, corpusFuncs.lookup s.seed = some names ∧ captured names image.symbols ≠ []) := by
    intro s image hat
    rw [entryOf, hat]
    rcases hn : corpusFuncs.lookup s.seed with - | names
    · simp
    · by_cases hcap : captured names image.symbols = []
      · simp [Binary.symtab, hcap]
      · simp [Binary.symtab, hcap]
  rw [reachesStrip, Bool.and_eq_true, List.all_eq_true, checkRound_ok_iff, compileJobs_zero_iff,
    exists_mapM_ok]
  constructor
  · rintro ⟨hrep, hall⟩
    have hall' : ∀ s ∈ planOf code flt, ∃ image, c.compile s = .wrote image := fun s hs => by
      obtain ⟨image, names, hc, -⟩ := CompileOutcome.captures_iff.mp (hall s hs)
      exact ⟨image, hc⟩
    refine ⟨⟨hrep, hall'⟩, fun s hs => ?_⟩
    obtain ⟨image, names, hc, hnames⟩ := CompileOutcome.captures_iff.mp (hall s hs)
    exact (hread s image (hwrote hall' s hs image hc)).mpr ⟨names, hnames⟩
  · rintro ⟨⟨hrep, hall⟩, hentries⟩
    refine ⟨hrep, fun s hs => ?_⟩
    obtain ⟨image, hc⟩ := hall s hs
    obtain ⟨names, hnames⟩ := (hread s image (hwrote hall s hs image hc)).mp (hentries s hs)
    exact CompileOutcome.captures_iff.mpr ⟨image, names, hc, hnames⟩

/-- What the commands of a build that ran on a slot leave in the place of its file. -/
def slotLeft (code : Code) (c : Container) (flt : Filters) (s : Slot) (old : Option Binary) :
    Option Binary :=
  let compiled := if s ∈ commandsRun (fun t => (c.compile t).dies) (planOf code flt)
    then (c.compile s).effect old else old
  if reachesStrip code c flt ∧
      s ∈ commandsRun (fun t => (c.strip t).dies) ((planOf code flt).filter Slot.strip)
  then (c.strip s).effect compiled else compiled

/-- The root after a build that raised. -/
theorem build_error_root (h : build code c flt root = (root', .error err)) :
    root' = { root with files := if reachesStrip code c flt
      then (stripFiles c ((planOf code flt).filter Slot.strip)
        (compileJobs c (planOf code flt) root.files).1).1
      else (compileJobs c (planOf code flt) root.files).1 } := by
  by_cases hplan : planOf code flt = []
  · rw [build_empty c root hplan] at h
    cases h
  rw [build] at h
  dsimp only at h
  rw [if_neg hplan] at h
  have hreach := @reachesStrip_iff code c flt root.files
  rcases hcheck : checkRound .compileFault .compileFailed c.compileReported
    (compileJobs c (planOf code flt) root.files).2 with err | ⟨⟩
  · -- the first batch
    simp only [hcheck, Prod.mk.injEq] at h
    rw [hcheck] at hreach
    rw [if_neg (fun hr => by cases (hreach.mp hr).1), h.1]
  simp only [hcheck] at h
  rcases hmap : (planOf code flt).mapM (entryOf (compileJobs c (planOf code flt) root.files).1)
    with err | built
  · -- the symbols
    simp only [hmap, Prod.mk.injEq] at h
    rw [hmap] at hreach
    rw [if_neg (fun hr => by cases (hreach.mp hr).2.choose_spec), h.1]
  -- the second batch, or the order of the manifest
  rw [if_pos (hreach.mpr ⟨hcheck, built, hmap⟩)]
  simp only [hmap] at h
  set strips := (planOf code flt).filter Slot.strip with hstrips
  have hround : (if strips = [] then
        ((compileJobs c (planOf code flt) root.files).1, Except.ok ()) else
        ((stripFiles c strips (compileJobs c (planOf code flt) root.files).1).1,
          checkRound .stripFault .stripFailed c.stripReported
            (stripFiles c strips (compileJobs c (planOf code flt) root.files).1).2)).1 =
      (stripFiles c strips (compileJobs c (planOf code flt) root.files).1).1 := by
    split_ifs with hnil
    · rw [hnil]
      rfl
    · rfl
  split at h
  · rw [hround] at h
    exact (Prod.mk.inj h).1.symm
  · split at h
    · rw [hround] at h
      exact (Prod.mk.inj h).1.symm
    · cases (Prod.mk.inj h).2

/-- **A build that raises** leaves the manifest and the stamp as they were, and at each path what
the commands that ran on it left there. -/
theorem build_error (h : build code c flt root = (root', .error err)) :
    root'.manifest = root.manifest ∧ root'.stamp = root.stamp ∧
    (∀ s ∈ planOf code flt, root'.files s.path = slotLeft code c flt s (root.files s.path)) ∧
    ∀ p, (∀ s ∈ planOf code flt, s.path ≠ p) → root'.files p = root.files p := by
  rw [build_error_root h]
  refine ⟨rfl, rfl, fun s hs => ?_, fun p hp => ?_⟩
  · rw [slotLeft, ← compileJobs_at hs]
    by_cases hr : reachesStrip code c flt = true
    · simp only [hr, true_and]
      exact stripFiles_at hs _
    · simp only [hr, false_and, if_false, Bool.false_eq_true]
  · have hcompile : (compileJobs c (planOf code flt) root.files).1 p = root.files p := by
      rw [compileJobs_files]
      exact runBatch_other _ _ hp
    by_cases hr : reachesStrip code c flt = true
    · simp only [if_pos hr]
      rw [stripFiles_files, runBatch_other _ _ fun s hs => hp s (List.mem_of_mem_filter hs)]
      exact hcompile
    · simp only [if_neg hr]
      exact hcompile

end Error

/-! ### The manifest afterwards -/

/-- The functions of the entry are those of the image. -/
def Entry.Reads (e : Entry) (image : Image) : Prop :=
  e.functions = captured ((corpusFuncs.lookup e.seed).getD []) image.symbols

/-- The entry says of a file what is the case: it was read from the symbols of the binary, and the
binary is stripped if and only if the entry says so. -/
def Entry.Fits (e : Entry) (file : Option Binary) : Prop :=
  ∃ b, file = some b ∧ b.stripped = e.stripped ∧ e.Reads b.image

/-- The entries of the manifest fit the files at their paths. -/
def Root.Truthful (root : Root) : Prop :=
  ∀ e ∈ root.manifest.getD [], e.Fits (root.files e.binary)

/-- The entries that get loaded fit the files at their paths. -/
def LoadsTrue (version : PyStr) (root : Root) : Prop :=
  ∀ entries, loadManifest version root = .ok entries → ∀ e ∈ entries, e.Fits (root.files e.binary)

/-- The compilers that ran, up to the first that took the container down. -/
def BuildCall.compiled (call : BuildCall) : List Slot :=
  commandsRun (fun t => (call.container.compile t).dies) call.plan

/-- The strips that ran, in the same way. -/
def BuildCall.stripped (call : BuildCall) : List Slot :=
  if reachesStrip call.code call.container call.filters then
    commandsRun (fun t => (call.container.strip t).dies) (call.plan.filter Slot.strip)
  else []

/-- **The commands keep the entry true**, by how they went.  A compiler that wrote a new binary keeps
it when the binary has the functions of the entry and is stripped just where the entry says so; it is
stripped when its strip succeeded.  A command that failed keeps it when it left the file alone, or
another one that fits. -/
def Entry.Kept (e : Entry) (call : BuildCall) (s : Slot) : Prop :=
  s ∈ call.compiled → match call.container.compile s with
    | .failed _ _ residue => ∀ file, residue = some file → e.Fits file
    | .died residue => ∀ file, residue = some file → e.Fits file
    | .wrote image =>
        if s ∈ call.stripped then
          match call.container.strip s with
          | .stripped => e.stripped = true ∧ e.Reads image
          | .failed _ _ none => e.stripped = false ∧ e.Reads image
          | .failed _ _ (some file) => e.Fits file
          | .died none => e.stripped = false ∧ e.Reads image
          | .died (some file) => e.Fits file
        else e.stripped = false ∧ e.Reads image

/-- Of the entries that would be loaded, the build keeps those true that are at the paths of its
slots. -/
def LeavesTrue (version : PyStr) (call : BuildCall) (root : Root) : Prop :=
  ∀ entries, loadManifest version root = .ok entries → ∀ e ∈ entries, ∀ s ∈ call.plan,
    s.path = e.binary → e.Kept call s

theorem Entry.fits_residue {e : Entry} {old : Option Binary} (h : e.Fits old) (residue : Residue) :
    e.Fits (residue.effect old) ↔ ∀ file, residue = some file → e.Fits file := by
  cases residue with
  | none => exact iff_of_true h nofun
  | some file =>
      show e.Fits file ↔ _
      simp

theorem Entry.fits_some {e : Entry} {b : Binary} :
    e.Fits (some b) ↔ e.stripped = b.stripped ∧ e.Reads b.image := by
  simp only [Entry.Fits, Option.some.injEq, exists_eq_left', eq_comm]

/-- What the commands leave at the path of a slot fits the entry if and only if they keep it true. -/
theorem Entry.fits_slotLeft {e : Entry} {call : BuildCall} {s : Slot} (hs : s ∈ call.plan)
    {old : Option Binary} (hold : e.Fits old) :
    e.Fits (slotLeft call.code call.container call.filters s old) ↔ e.Kept call s := by
  have hstripped : (reachesStrip call.code call.container call.filters = true ∧
      s ∈ commandsRun (fun t => (call.container.strip t).dies)
        ((planOf call.code call.filters).filter Slot.strip)) ↔ s ∈ call.stripped := by
    rw [BuildCall.stripped]
    split_ifs with hreach
    · exact and_iff_right hreach
    · simp [hreach]
  -- where the build comes to the strips, every compiler has run and wrote a binary
  have hwrote : s ∈ call.stripped →
      s ∈ call.compiled ∧ ∃ image, call.container.compile s = .wrote image := by
    intro hin
    have hreach := (hstripped.mpr hin).1
    rw [reachesStrip, Bool.and_eq_true, List.all_eq_true] at hreach
    have hall : ∀ t ∈ call.plan, ∃ image, call.container.compile t = .wrote image := fun t ht => by
      obtain ⟨image, -, himage, -⟩ := CompileOutcome.captures_iff.mp (hreach.2 t ht)
      exact ⟨image, himage⟩
    refine ⟨?_, hall s hs⟩
    rw [BuildCall.compiled, commandsRun_of_alive fun t ht => ?_]
    · exact hs
    · obtain ⟨image, himage⟩ := hall t ht
      rw [himage]
      rfl
  rw [slotLeft, Entry.Kept]
  simp only [hstripped]
  show e.Fits (if s ∈ call.stripped then (call.container.strip s).effect
    (if s ∈ call.compiled then _ else _) else if s ∈ call.compiled then _ else _) ↔ _
  by_cases hrun : s ∈ call.compiled
  swap
  · -- an earlier compiler took the container down
    rw [if_neg fun hin => hrun (hwrote hin).1, if_neg hrun]
    exact iff_of_true hold fun h => absurd h hrun
  rw [if_pos hrun]
  -- a compiler that did not write a binary is not followed by strips
  have hnone : ¬ (∃ image, call.container.compile s = .wrote image) → s ∉ call.stripped :=
    fun hno hin => hno (hwrote hin).2
  rcases hcompile : call.container.compile s with image | ⟨rc, hrc, residue⟩ | residue
  · have hcompiled : (CompileOutcome.wrote image).effect old = some ⟨image, false⟩ := rfl
    by_cases hin : s ∈ call.stripped
    · simp only [if_pos hin, forall_const, hrun, hcompiled]
      rcases call.container.strip s with - | ⟨rc, hrc, _ | file⟩ | _ | file
      · exact Entry.fits_some
      · exact Entry.fits_some
      · exact Iff.rfl
      · exact Entry.fits_some
      · exact Iff.rfl
    · simp only [if_neg hin, forall_const, hrun, hcompiled]
      exact Entry.fits_some
  · simp only [if_neg (hnone (by simp [hcompile])), forall_const, hrun]
    exact Entry.fits_residue hold residue
  · simp only [if_neg (hnone (by simp [hcompile])), forall_const, hrun]
    exact Entry.fits_residue hold residue

/-- **After a failure.**  The corpus is truthful, and a build of it raises.  What gets loaded
afterwards is truthful if and only if the commands that ran keep the entries true that are at the
paths of its slots. -/
theorem loadsTrue_iff_leavesTrue {call : BuildCall} {root root' : Root} {err : BuildError}
    (htrue : root.Truthful)
    (h : build call.code call.container call.filters root = (root', .error err))
    (version : PyStr) : LoadsTrue version root' ↔ LeavesTrue version call root := by
  obtain ⟨hmanifest, hstamp, hplan, hother⟩ := build_error h
  have hload : loadManifest version root' = loadManifest version root := by
    rw [loadManifest, loadManifest, hmanifest, hstamp]
  rw [LoadsTrue, LeavesTrue, hload]
  refine forall₂_congr fun entries hentries => forall₂_congr fun e he => ?_
  have hold : e.Fits (root.files e.binary) := by
    apply htrue e
    rw [(loadManifest_ok.mp hentries).2]
    exact he
  by_cases hin : ∃ s ∈ call.plan, s.path = e.binary
  · obtain ⟨s, hs, hpath⟩ := hin
    have hat := hplan s hs
    rw [hpath] at hat
    rw [hat, Entry.fits_slotLeft hs hold]
    constructor
    · intro hkept t ht htpath
      rwa [eq_of_path_of_mem ht hs (htpath.trans hpath.symm)]
    · exact fun hall => hall s hs hpath
  · rw [hother e.binary fun s hs hpath => hin ⟨s, hs, hpath⟩]
    exact iff_of_true hold fun s hs hpath => absurd ⟨s, hs, hpath⟩ hin

/-- A container whose strip command does not get to do anything. -/
def noStripContainer : Container :=
  { soundContainer with strip := fun _ => .failed 1 (by decide) none }

/-- A build of the stripped variant in it. -/
def noStripCall : BuildCall := { variantCall (py "2.1") (py "gcc-O2-stripped") with
  container := noStripContainer }

/-- A corpus with the stripped variant. -/
def strippedRoot : Root := (variantCall (py "2.1") (py "gcc-O2-stripped")).after .empty

theorem strippedRoot_manifest :
    strippedRoot.manifest = some [variantEntry (py "gcc-O2-stripped")] := by
  decide +kernel

theorem strippedRoot_truthful : strippedRoot.Truthful := by
  intro e he
  rw [strippedRoot_manifest, Option.getD_some, List.mem_singleton] at he
  subst he
  refine ⟨⟨⟨[(py "pk_version_ok", 0x401000, 32)], []⟩, true⟩, by decide +kernel, by decide +kernel, ?_⟩
  rw [Entry.Reads]
  decide +kernel

theorem noStrip_error : build noStripCall.code noStripCall.container noStripCall.filters
    strippedRoot = (noStripCall.after strippedRoot, .error .stripFailed) :=
  Prod.ext rfl (by decide +kernel)

theorem loadsTrue_iff_leavesTrue_noStrip :
    LoadsTrue (py "2.1") (noStripCall.after strippedRoot) ↔
      LeavesTrue (py "2.1") noStripCall strippedRoot :=
  loadsTrue_iff_leavesTrue strippedRoot_truthful noStrip_error (py "2.1")

/-- The entry goes on saying that the binary is stripped. -/
theorem failed_build_lies : ¬ ∀ (call : BuildCall) (root root' : Root) (err : BuildError),
    root.Truthful → build call.code call.container call.filters root = (root', .error err) →
      ∀ version, LoadsTrue version root' := by
  intro hall
  have hloads := hall noStripCall strippedRoot _ _ strippedRoot_truthful noStrip_error (py "2.1")
  have hload : loadManifest (py "2.1") (noStripCall.after strippedRoot) =
      .ok [variantEntry (py "gcc-O2-stripped")] := by decide +kernel
  obtain ⟨b, hb, hstripped, -⟩ := hloads _ hload _ List.mem_cons_self
  have hleft : (noStripCall.after strippedRoot).files (variantEntry (py "gcc-O2-stripped")).binary =
      some ⟨⟨[(py "pk_version_ok", 0x401000, 32)], []⟩, false⟩ := by decide +kernel
  rw [hleft, Option.some.injEq] at hb
  rw [← hb] at hstripped
  exact absurd hstripped (by decide)

end ReSchema
