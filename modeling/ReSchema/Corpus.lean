/-
ReSchema/Corpus.lean

Corpus builds (`corpus/generate.py`, and the modes of `driver/native_worker.py`
that they use).

The corpus root has one binary for each slot of the matrix, a manifest with the
addresses of their functions, and a stamp with the version of the canonicaliser.
A build compiles the slots of its plan in place in one batch, reads the
addresses, strips in a second batch, and writes the manifest and the stamp last.

What the container does with a job is given: every command may succeed, fail
or take the container down with it, and what it leaves at the path of its
output is its own affair, except that a compiler that succeeds leaves an
unstripped binary, and a strip that succeeds strips.
-/
import ReSchema.Py.Json

namespace ReSchema

open Py

/-! ### Slots -/

/-- `COMPILERS`. -/
def compilers : List PyStr := [py "gcc", py "clang"]

/-- `OPTS`. -/
def opts : List PyStr := [py "-O0", py "-O1", py "-O2"]

/-- The two variants of a build. -/
def variants : List PyStr := [py "sym", py "stripped"]

/-- `FUNCS`: the functions to look for, by the seed. -/
def corpusFuncs : Dict (List PyStr) :=
  [(py "rot13", [py "rot13_char", py "rot13"]), (py "check", [py "pw_hash", py "check_pw"]),
    (py "calc", [py "clamp_i32", py "sum_range", py "scale_buf"]),
    (py "filewrite", [py "xform_byte"]), (py "pkfmt", [py "pk_version_ok"])]

/-- One slot of the matrix. -/
structure Slot where
  seed : PyStr
  compiler : PyStr
  opt : PyStr
  strip : Bool

instance : DecidableEq Slot := fun s t =>
  decidable_of_iff (s.seed = t.seed ∧ s.compiler = t.compiler ∧ s.opt = t.opt ∧ s.strip = t.strip)
    (by cases s; cases t; simp)

/-- The selector of a slot, `<cc>-<opt>-<sym|stripped>`. -/
def Slot.text (s : Slot) : PyStr :=
  s.compiler ++ py "-" ++ s.opt.dropWhile (· == ch '-') ++ py "-" ++
    if s.strip then py "stripped" else py "sym"

def Slot.taskId (s : Slot) : PyStr := s.seed ++ py "::" ++ s.text

/-- The path of the binary under the corpus root. -/
def Slot.path (s : Slot) : PyStr := s.seed ++ py "/" ++ s.text ++ py "/prog"

/-- The keys that slots are sorted by. -/
abbrev SlotKey := PyStr ×ₗ ℕ ×ₗ ℕ ×ₗ ℕ

/-- `_slot_sort_key(task_id)`, with `none` for a `ValueError`. -/
def slotSortKey (taskId : PyStr) : Option SlotKey :=
  match splitText (py "::") taskId with
  | [seed, rest] =>
      match splitText (py "-") rest with
      | [cc, opt, variant] => do
          let i ← compilers.idxOf? cc
          let j ← opts.idxOf? (py "-" ++ opt)
          let k ← variants.idxOf? variant
          return toLex (seed, toLex (i, toLex (j, k)))
      | _ => none
  | _ => none

/-! ### The corpus root -/

/-- What a compiler makes. -/
structure Image where
  /-- Names of functions, with address and size. -/
  symbols : Dict (ℤ × ℤ)
  code : Bytes

instance : DecidableEq Image := fun a b =>
  decidable_of_iff (a.symbols = b.symbols ∧ a.code = b.code) (by cases a; cases b; simp)

/-- A binary as it stands in the corpus. -/
structure Binary where
  image : Image
  stripped : Bool

instance : DecidableEq Binary := fun a b =>
  decidable_of_iff (a.image = b.image ∧ a.stripped = b.stripped) (by cases a; cases b; simp)

/-- `symtab(binary)`. -/
def Binary.symtab (b : Binary) : Dict (ℤ × ℤ) := if b.stripped then [] else b.image.symbols

/-- An entry of the manifest. -/
structure Entry where
  seed : PyStr
  compiler : PyStr
  opt : PyStr
  stripped : Bool
  binary : PyStr
  taskId : PyStr
  functions : Dict (ℤ × ℤ)

instance : DecidableEq Entry := fun a b =>
  decidable_of_iff (a.seed = b.seed ∧ a.compiler = b.compiler ∧ a.opt = b.opt ∧
    a.stripped = b.stripped ∧ a.binary = b.binary ∧ a.taskId = b.taskId ∧
    a.functions = b.functions) (by cases a; cases b; simp)

/-- The files at their paths. -/
abbrev Files := PyStr → Option Binary

/-- The corpus root. -/
structure Root where
  files : Files
  manifest : Option (List Entry)
  stamp : Option PyStr

/-- A root with nothing in it. -/
def Root.empty : Root := ⟨fun _ => none, none, none⟩

/-! ### The container -/

/-- What a command that does not succeed leaves at its path: nothing new, or a file, or no
file. -/
abbrev Residue := Option (Option Binary)

/-- How one compile command goes. -/
inductive CompileOutcome
  | wrote (image : Image)
  | failed (rc : ℤ) (nonzero : rc ≠ 0) (residue : Residue)
  | died (residue : Residue)

/-- How one strip command goes. -/
inductive StripOutcome
  | stripped
  | failed (rc : ℤ) (nonzero : rc ≠ 0) (residue : Residue)
  | died (residue : Residue)

/-- The container during one build; a report may get lost after the work is done. -/
structure Container where
  compile : Slot → CompileOutcome
  compileReported : Bool
  strip : Slot → StripOutcome
  stripReported : Bool

def Files.leave (fs : Files) (path : PyStr) : Residue → Files
  | none => fs
  | some file => Function.update fs path file

/-- `_compile_jobs`: the files afterwards and the return codes, or `none` for a container that
went down on the way. -/
def compileJobs (c : Container) : List Slot → Files → Files × Option (List ℤ)
  | [], fs => (fs, some [])
  | s :: plan, fs =>
      match c.compile s with
      | .wrote image =>
          let r := compileJobs c plan (fs.leave s.path (some (some ⟨image, false⟩)))
          (r.1, r.2.map (0 :: ·))
      | .failed rc _ residue =>
          let r := compileJobs c plan (fs.leave s.path residue)
          (r.1, r.2.map (rc :: ·))
      | .died residue => (fs.leave s.path residue, none)

/-- `_strip`, in the same way. -/
def stripFiles (c : Container) : List Slot → Files → Files × Option (List ℤ)
  | [], fs => (fs, some [])
  | s :: plan, fs =>
      match c.strip s with
      | .stripped =>
          let file := (fs s.path).map fun b => { b with stripped := true }
          let r := stripFiles c plan (fs.leave s.path (some file))
          (r.1, r.2.map (0 :: ·))
      | .failed rc _ residue =>
          let r := stripFiles c plan (fs.leave s.path residue)
          (r.1, r.2.map (rc :: ·))
      | .died residue => (fs.leave s.path residue, none)

/-! ### A build -/

/-- Where a build raises. -/
inductive BuildError
  | compileFault
  | compileFailed
  | unknownSeed
  | noBinary
  | noFunctions
  | stripFault
  | stripFailed
  | unsortable
  deriving DecidableEq

/-- The code that runs a build: its canonicaliser's version and its seeds, in sorted order. -/
structure Code where
  version : PyStr
  seeds : List PyStr

/-- The arguments of a build. -/
structure Filters where
  seedIds : Option (List PyStr)
  matrix : Option (List PyStr)

/-- An argument that is `None` admits everything. -/
def admits (filter : Option (List PyStr)) (x : PyStr) : Bool := filter.all (x ∈ ·)

/-- A build with neither argument is a full one. -/
def Filters.targeted (flt : Filters) : Bool := flt.seedIds.isSome || flt.matrix.isSome

/-- All slots of the code, in the order of the plan. -/
def Code.slots (code : Code) : List Slot :=
  code.seeds.flatMap fun seed => compilers.flatMap fun cc => opts.flatMap fun opt =>
    [false, true].map fun strip => ⟨seed, cc, opt, strip⟩

/-- The slots that a build is for. -/
def planOf (code : Code) (flt : Filters) : List Slot :=
  code.slots.filter fun s => admits flt.seedIds s.seed && admits flt.matrix s.text

/-- The functions of a seed that a symbol table has. -/
def captured (names : List PyStr) (symbols : Dict (ℤ × ℤ)) : Dict (ℤ × ℤ) :=
  names.filterMap fun f => (symbols.lookup f).map fun v => (f, v)

/-- The entry of a slot, read from its binary before the strip. -/
def entryOf (fs : Files) (s : Slot) : Except BuildError Entry :=
  match fs s.path, corpusFuncs.lookup s.seed with
  | none, _ => .error .noBinary
  | _, none => .error .unknownSeed
  | some b, some names =>
      if captured names b.symtab = [] then .error .noFunctions
      else .ok ⟨s.seed, s.compiler, s.opt, s.strip, s.path, s.taskId, captured names b.symtab⟩

/-- `_check`: the container's fault, or a return code that is not zero. -/
def checkRound (fault failed : BuildError) (reported : Bool) :
    Option (List ℤ) → Except BuildError Unit
  | some rcs => if !reported then .error fault else if rcs.any (· ≠ 0) then .error failed else .ok ()
  | none => .error fault

/-- The entries sorted by their task ids. -/
def sortEntries (manifest : Dict Entry) : Except BuildError (List Entry) :=
  match manifest.mapM fun p => (slotSortKey p.1).map fun k => (k, p.2) with
  | none => .error .unsortable
  | some keyed => .ok ((keyed.insertionSort fun p q => p.1 ≤ q.1).map Prod.snd)

/-- The manifest that a build starts from. -/
def oldManifest (flt : Filters) (root : Root) : Dict Entry :=
  match flt.targeted, root.manifest with
  | true, some entries => Dict.update [] (entries.map fun e => (e.taskId, e))
  | _, _ => []

/-- `build(out_root, seed_ids, matrix)`: the root afterwards, and the entries built. -/
def build (code : Code) (c : Container) (flt : Filters) (root : Root) :
    Root × Except BuildError (List Entry) :=
  let plan := planOf code flt
  if plan = [] then (root, .ok [])
  else
    let compiled := compileJobs c plan root.files
    match checkRound .compileFault .compileFailed c.compileReported compiled.2 with
    | .error err => ({ root with files := compiled.1 }, .error err)
    | .ok () =>
      match plan.mapM (entryOf compiled.1) with
      | .error err => ({ root with files := compiled.1 }, .error err)
      | .ok built =>
        let toStrip := plan.filter Slot.strip
        let round := if toStrip = [] then (compiled.1, .ok ()) else
          let stripped := stripFiles c toStrip compiled.1
          (stripped.1, checkRound .stripFault .stripFailed c.stripReported stripped.2)
        match round.2 with
        | .error err => ({ root with files := round.1 }, .error err)
        | .ok () =>
          match sortEntries (Dict.update (oldManifest flt root) (built.map fun e => (e.taskId, e))) with
          | .error err => ({ root with files := round.1 }, .error err)
          | .ok manifest => (⟨round.1, some manifest, some code.version⟩, .ok built)

/-- Why a manifest is not loaded. -/
inductive LoadError
  | stale (stamped : Option PyStr)
  | missing
  deriving DecidableEq

/-- `load_manifest(out_root)` under a version of the canonicaliser. -/
def loadManifest (version : PyStr) (root : Root) : Except LoadError (List Entry) :=
  if (root.stamp.getD (py "(missing)")) ≠ version then .error (.stale root.stamp)
  else match root.manifest with
    | none => .error .missing
    | some manifest => .ok manifest

theorem loadManifest_ok {version : PyStr} {root : Root} {entries : List Entry} :
    loadManifest version root = .ok entries ↔
      root.stamp.getD (py "(missing)") = version ∧ root.manifest = some entries := by
  rw [loadManifest]
  by_cases h : root.stamp.getD (py "(missing)") = version
  · rw [if_neg (not_not.mpr h)]
    rcases root.manifest with - | M
    · simp
    · simp [h]
  · simp [h]

/-! ### Slots by their names -/

/-- The keys of a slot in the order of the matrix. -/
def Slot.key (s : Slot) : SlotKey :=
  toLex (s.seed, toLex (compilers.idxOf s.compiler, toLex (opts.idxOf s.opt,
    if s.strip then 1 else 0)))

/-- A slot of the matrix whose seed has functions to look for. -/
structure Slot.Known (s : Slot) : Prop where
  seed : s.seed ∈ corpusFuncs.keys
  compiler : s.compiler ∈ compilers
  opt : s.opt ∈ opts

theorem Slot.Known.sortKey {s : Slot} (h : s.Known) : slotSortKey s.taskId = some s.key := by
  have hall : ∀ seed ∈ corpusFuncs.keys, ∀ cc ∈ compilers, ∀ opt ∈ opts, ∀ strip : Bool,
      slotSortKey (Slot.taskId ⟨seed, cc, opt, strip⟩) = some (Slot.key ⟨seed, cc, opt, strip⟩) := by
    decide +kernel
  exact hall s.seed h.seed s.compiler h.compiler s.opt h.opt s.strip

theorem Slot.Known.splitPath {s : Slot} (h : s.Known) :
    splitText (py "/") s.path = [s.seed, s.text, py "prog"] := by
  have hall : ∀ seed ∈ corpusFuncs.keys, ∀ cc ∈ compilers, ∀ opt ∈ opts, ∀ strip : Bool,
      splitText (py "/") (Slot.path ⟨seed, cc, opt, strip⟩) =
        [seed, Slot.text ⟨seed, cc, opt, strip⟩, py "prog"] := by
    decide +kernel
  exact hall s.seed h.seed s.compiler h.compiler s.opt h.opt s.strip

/-- The keys tell the slots apart. -/
theorem Slot.Known.eq_of_key {s t : Slot} (hs : s.Known) (h : s.key = t.key) : s = t := by
  obtain ⟨seed, compiler, opt, strip⟩ := s
  obtain ⟨seed', compiler', opt', strip'⟩ := t
  simp only [Slot.key, toLex_inj, Prod.mk.injEq] at h
  obtain ⟨rfl, hcompiler, hopt, hstrip⟩ := h
  obtain rfl := (List.idxOf_inj hs.compiler).mp hcompiler
  obtain rfl := (List.idxOf_inj hs.opt).mp hopt
  have : strip = strip' := by cases strip <;> cases strip' <;> simp_all
  rw [this]

theorem Slot.Known.eq_of_taskId {s t : Slot} (hs : s.Known) (ht : t.Known)
    (h : s.taskId = t.taskId) : s = t := by
  have hkey := hs.sortKey
  rw [h, ht.sortKey, Option.some.injEq] at hkey
  exact hs.eq_of_key hkey.symm

/-- So do the paths. -/
theorem Slot.Known.eq_of_path {s t : Slot} (hs : s.Known) (ht : t.Known)
    (h : s.path = t.path) : s = t := by
  have hsplit := hs.splitPath
  rw [h, ht.splitPath, List.cons.injEq, List.cons.injEq] at hsplit
  refine hs.eq_of_taskId ht ?_
  rw [taskId, taskId, hsplit.1, hsplit.2.1]

theorem mem_slots {code : Code} {s : Slot} :
    s ∈ code.slots ↔ s.seed ∈ code.seeds ∧ s.compiler ∈ compilers ∧ s.opt ∈ opts := by
  simp only [Code.slots, List.mem_flatMap, List.mem_map]
  constructor
  · rintro ⟨seed, hseed, cc, hcc, opt, hopt, strip, -, rfl⟩
    exact ⟨hseed, hcc, hopt⟩
  · rintro ⟨hseed, hcc, hopt⟩
    exact ⟨s.seed, hseed, s.compiler, hcc, s.opt, hopt, s.strip, by cases s.strip <;> simp, rfl⟩

/-! ### The first batch -/

theorem Files.leave_self (fs : Files) (path : PyStr) (file : Option Binary) :
    fs.leave path (some file) path = file := Function.update_self ..

theorem Files.leave_of_ne (fs : Files) {path p : PyStr} (h : p ≠ path) (residue : Residue) :
    fs.leave path residue p = fs p := by
  cases residue with
  | none => rfl
  | some file => exact Function.update_of_ne h ..

/-- A path that belongs to no slot of the plan is left alone. -/
theorem compileJobs_other (c : Container) (plan : List Slot) (fs : Files) {p : PyStr}
    (h : ∀ s ∈ plan, p ≠ s.path) : (compileJobs c plan fs).1 p = fs p := by
  induction plan generalizing fs with
  | nil => rfl
  | cons s plan ih =>
      obtain ⟨hs, hplan⟩ := List.forall_mem_cons.mp h
      rw [compileJobs]
      cases c.compile s with
      | wrote image => exact (ih _ hplan).trans (Files.leave_of_ne fs hs _)
      | failed rc _ residue => exact (ih _ hplan).trans (Files.leave_of_ne fs hs _)
      | died residue => exact Files.leave_of_ne fs hs _

/-- A batch that succeeds leaves a fresh binary at each of its paths. -/
theorem compileJobs_ok {c : Container} {plan : List Slot} {fs : Files} {rcs : List ℤ}
    (h : (compileJobs c plan fs).2 = some rcs) (hzero : ∀ rc ∈ rcs, rc = 0) :
    ∀ s ∈ plan, ∃ t ∈ plan, t.path = s.path ∧ ∃ image, c.compile t = .wrote image ∧
      (compileJobs c plan fs).1 s.path = some ⟨image, false⟩ := by
  induction plan generalizing fs rcs with
  | nil => exact fun _ h => absurd h List.not_mem_nil
  | cons s plan ih =>
      cases hc : c.compile s with
      | died residue => simp [compileJobs, hc] at h
      | failed rc hrc residue =>
          simp only [compileJobs, hc, Option.map_eq_some_iff] at h
          obtain ⟨rcs', -, rfl⟩ := h
          exact absurd (hzero rc List.mem_cons_self) hrc
      | wrote image =>
          simp only [compileJobs, hc, Option.map_eq_some_iff] at h
          obtain ⟨rcs', h', rfl⟩ := h
          have hrest := ih h' fun rc hm => hzero rc (List.mem_cons_of_mem _ hm)
          have hfiles : (compileJobs c (s :: plan) fs).1 =
              (compileJobs c plan (fs.leave s.path (some (some ⟨image, false⟩)))).1 := by
            simp only [compileJobs, hc]
          rw [hfiles]
          intro t ht
          -- the last slot with the path has written the file
          by_cases hin : ∃ u ∈ plan, u.path = t.path
          · obtain ⟨u, hu, hut⟩ := hin
            obtain ⟨v, hv, hvu, image', hcv, hat⟩ := hrest u hu
            rw [hut] at hvu hat
            exact ⟨v, List.mem_cons_of_mem s hv, hvu, image', hcv, hat⟩
          · have hts : t = s := (List.mem_cons.mp ht).resolve_right fun hm => hin ⟨t, hm, rfl⟩
            subst hts
            refine ⟨t, List.mem_cons_self, rfl, image, hc, ?_⟩
            rw [compileJobs_other c plan _ fun u hu e => hin ⟨u, hu, e.symm⟩]
            exact Files.leave_self ..

/-! ### What a build does -/

/-- The entry of a slot with a given build. -/
def imageEntry (s : Slot) (image : Image) : Entry :=
  ⟨s.seed, s.compiler, s.opt, s.strip, s.path, s.taskId,
    captured ((corpusFuncs.lookup s.seed).getD []) image.symbols⟩

/-- What there is to know of a build that succeeded on some slots. -/
structure BuildOk (code : Code) (c : Container) (flt : Filters) (root root' : Root)
    (built : List Entry) : Prop where
  known : ∀ s ∈ planOf code flt, s.Known
  entries : List.Forall₂ (fun s e => ∃ image, c.compile s = .wrote image ∧ e = imageEntry s image)
    (planOf code flt) built
  stamp : root'.stamp = some code.version
  manifest : ∃ M, root'.manifest = some M ∧
    sortEntries (Dict.update (oldManifest flt root) (built.map fun e => (e.taskId, e))) = .ok M

theorem checkRound_ok {fault failed : BuildError} {reported : Bool} {r : Option (List ℤ)}
    (h : checkRound fault failed reported r = .ok ()) :
    ∃ rcs, r = some rcs ∧ ∀ rc ∈ rcs, rc = 0 := by
  cases r with
  | none => simp [checkRound] at h
  | some rcs =>
      refine ⟨rcs, rfl, ?_⟩
      simp only [checkRound] at h
      split_ifs at h with hrep hany
      simpa using hany

theorem entryOf_ok {fs : Files} {s : Slot} {e : Entry} (h : entryOf fs s = .ok e) :
    s.seed ∈ corpusFuncs.keys ∧ ∃ b, fs s.path = some b ∧
      e = ⟨s.seed, s.compiler, s.opt, s.strip, s.path, s.taskId,
        captured ((corpusFuncs.lookup s.seed).getD []) b.symtab⟩ := by
  unfold entryOf at h
  rcases hb : fs s.path with - | b
  · simp [hb] at h
  · rcases hn : corpusFuncs.lookup s.seed with - | names
    · simp [hb, hn] at h
    · simp only [hb, hn] at h
      split_ifs at h
      cases h
      exact ⟨List.mem_map_of_mem (f := Prod.fst) (Dict.mem_of_lookup_eq_some hn), b, rfl, rfl⟩

theorem mem_planOf {code : Code} {flt : Filters} {s : Slot} :
    s ∈ planOf code flt ↔ s ∈ code.slots ∧ admits flt.seedIds s.seed ∧ admits flt.matrix s.text := by
  rw [planOf, List.mem_filter, Bool.and_eq_true]

theorem build_empty {code : Code} (c : Container) {flt : Filters} (root : Root)
    (h : planOf code flt = []) : build code c flt root = (root, .ok []) := if_pos h

theorem build_ok {code : Code} {c : Container} {flt : Filters} {root root' : Root}
    {built : List Entry} (h : build code c flt root = (root', .ok built))
    (hplan : planOf code flt ≠ []) : BuildOk code c flt root root' built := by
  -- the steps of `build` in their order; each can end it with an error
  rw [build] at h
  dsimp only at h
  rw [if_neg hplan] at h
  rcases hcheck : checkRound .compileFault .compileFailed c.compileReported
    (compileJobs c (planOf code flt) root.files).2 with err | ⟨⟩
  · simp [hcheck] at h
  simp only [hcheck] at h
  rcases hmap : (planOf code flt).mapM (entryOf (compileJobs c (planOf code flt) root.files).1)
    with err | built'
  · simp [hmap] at h
  simp only [hmap] at h
  split at h
  · simp at h
  · rcases hsort : sortEntries (Dict.update (oldManifest flt root)
      (built'.map fun e => (e.taskId, e))) with err | M
    · simp [hsort] at h
    simp only [hsort, Prod.mk.injEq, Except.ok.injEq] at h
    obtain ⟨rfl, rfl⟩ := h
    have hforall := mapM_ok.mp hmap
    have hknown : ∀ s ∈ planOf code flt, s.Known := by
      intro s hs
      obtain ⟨e, -, he⟩ := related_right hforall hs
      have hslot := mem_slots.mp (mem_planOf.mp hs).1
      exact ⟨(entryOf_ok he).1, hslot.2.1, hslot.2.2⟩
    obtain ⟨rcs, hrcs, hzero⟩ := checkRound_ok hcheck
    refine ⟨hknown, ?_, rfl, M, rfl, hsort⟩
    refine related_imp hforall fun s hs e he => ?_
    obtain ⟨t, ht, hpath, image, hc, hat⟩ := compileJobs_ok hrcs hzero s hs
    obtain rfl := (hknown t ht).eq_of_path (hknown s hs) hpath
    obtain ⟨-, b, hb, rfl⟩ := entryOf_ok he
    rw [hat, Option.some.injEq] at hb
    subst hb
    exact ⟨image, hc, rfl⟩

end ReSchema
