/-
ReSchema/BuildRound.lean

One round of a corpus build over the wire (`toolchain.run_build`, the modes
`compile` and `strip` of `driver/native_worker.py`, and `_check` of
`corpus/generate.py`).

The host writes a job as JSON to the container's stdin.  The worker reads it,
runs one command after the other, and prints the return codes and messages as
JSON; the host reads that, and raises for a fault of the container or for the
first command that failed.  `Corpus` takes the whole round for one step; here is
why it may.

  * `compile_round`, `strip_round`: a round is its commands, run in order;
  * `build_refines`:                a build over the wire is one of `Corpus`.
-/
import ReSchema.CorpusFailure
import ReSchema.Py.Utf8
import ReSchema.Py.Interpreter
import ReSchema.Spec

namespace ReSchema

open Py

/-! ### The container -/

/-- How a command in the container ends: with a return code and the text on stderr, or with an
exception in the worker.  The text was decoded, so it has no surrogates. -/
inductive ShEnd (W : Type)
  | done (rc : ℤ) (stderr : PyStr) (small : rc.natAbs < 2 ^ 33) (scalar : NoSurrogate stderr) (w : W)
  | raised (w : W)

/-- The container; `W` is what stands under `/work`.  What Podman makes of the worker's end is
given: a report may be lost, with a return code and a text of its own. -/
structure Toolchain (F W : Type) where
  /-- `podman image inspect`. -/
  image : Option PyStr
  /-- `_sh(argv)`. -/
  sh : List PyStr → W → ShEnd W
  /-- `open(path, "w")` and `f.write(text)`. -/
  write : PyStr → PyStr → W → W
  /-- The modes `validate` and `compile-link`. -/
  otherModes : Dict (Json F) → W → W × Option (Json F)
  timedOut : Bool
  reported : Bool
  returncode : ℤ
  stderr : Bytes

/-! ### The worker -/

section Worker

variable {F W : Type} (T : Toolchain F W)

/-- One command, and its entry in the results under the key of its output. -/
def Toolchain.entry (key out : PyStr) (argv : List PyStr) (w : W) : W × Option (Json F) :=
  match T.sh argv w with
  | .done rc stderr _ _ w => (w, some (.obj [(key, .str out), (py "rc", .int rc),
      (py "stderr", .str stderr)]))
  | .raised w => (w, none)

/-- Where the source of a job is, and the text that has to be written there first. -/
def jobSource (j out : Json F) : Option (PyStr × Option PyStr) :=
  match j.get? (py "src_path") with
  | some path => do
      let src ← path.str?
      return (if py "/" <+: src then src else py "/app/" ++ src, none)
  | none => do
      let out ← out.str?
      let text ← (← j.get? (py "c_source")).str?
      return (py "/work/" ++ out ++ py ".c", some text)

/-- The command of a job. -/
def jobArgv (j : Json F) (src out : PyStr) : Option (List PyStr) := do
  let compiler ← (← j.get? (py "compiler")).str?
  let flags ← (← j.get? (py "flags")).strs?
  return compiler :: (flags ++ [src, py "-o", py "/work/" ++ out])

/-- One job of `_compile_jobs`. -/
def Toolchain.compileOne (j : Json F) (w : W) : W × Option (Json F) :=
  match jobSource j ((j.get? (py "out")).getD .null) with
  | none => (w, none)
  | some (src, text) =>
      let w := match text with
        | some text => T.write src text w
        | none => w
      match (j.get? (py "out")).bind Json.str? with
      | none => (w, none)
      | some out =>
          match jobArgv j src out with
          | none => (w, none)
          | some argv => T.entry (py "out") out argv w

/-- One file of `_strip`. -/
def Toolchain.stripOne (f : Json F) (w : W) : W × Option (Json F) :=
  match f.str? with
  | none => (w, none)
  | some path => T.entry (py "file") path [py "strip", py "-s", py "/work/" ++ path] w

/-- The loop over the jobs, up to an exception. -/
def overJobs (step : Json F → W → W × Option (Json F)) :
    List (Json F) → W → W × Option (List (Json F))
  | [], w => (w, some [])
  | j :: js, w =>
      match step j w with
      | (w, none) => (w, none)
      | (w, some r) =>
          let rest := overJobs step js w
          (rest.1, rest.2.map (r :: ·))

/-- `{"results": results}`. -/
def resultsJson (rs : List (Json F)) : Json F := .obj [(py "results", .arr rs)]

/-- The modes of the worker. -/
def Toolchain.runMode [Runtime F] (job : Dict (Json F)) (mode : Json F) (w : W) :
    W × Option (Json F) :=
  if mode.str? = some (py "compile") then
    match (job.lookup (py "jobs")).bind Json.arr? with
    | none => (w, none)
    | some js =>
        let r := overJobs T.compileOne js w
        (r.1, r.2.map resultsJson)
  else if mode.str? = some (py "strip") then
    match (job.lookup (py "files")).bind Json.arr? with
    | none => (w, none)
    | some fs =>
        let r := overJobs T.stripOne fs w
        (r.1, r.2.map resultsJson)
  else if mode.str? = some (py "validate") ∨ mode.str? = some (py "compile-link") then
    T.otherModes job w
  else (w, some (.obj [(py "stage", .str (py "internal")),
    (py "detail", .str (py "unknown mode " ++ pyRepr mode))]))

/-- `main()`: what stands under `/work` afterwards, and what was printed. -/
def Toolchain.main [Runtime F] (stdin : Bytes) (w : W) : W × Option Bytes :=
  match (loads (F := F) stdin).bind Json.obj? with
  | none => (w, none)
  | some job =>
      match job.lookup (py "mode") with
      | none => (w, none)
      | some mode =>
          let r := T.runMode job mode w
          (r.1, r.2.map fun out => encode (dumps plain out))

end Worker

/-! ### The host -/

/-- What a round raises: `RuntimeError` with its text, the time limit, or another exception. -/
inductive RoundError
  | runtime (text : PyStr)
  | timeout
  | other

section Host

variable {F W : Type} [Runtime F] (T : Toolchain F W)

/-- The refusal without an image. -/
def imageMissing : PyStr :=
  py ("toolchain image missing; build it: " ++
    "podman build -t localhost/reschema-toolchain:1 -f Containerfile .")

/-- The detail for a container that did not end well. -/
def Toolchain.infra : PyStr :=
  py "container rc=" ++ intText T.returncode ++ py ": " ++
    (decodeUtf8 .replace T.stderr).getD []

/-- `{"stage": "infra", "detail": detail}`. -/
def infraJson (detail : PyStr) : Json F :=
  .obj [(py "stage", .str (py "infra")), (py "detail", .str detail)]

/-- `run_build(job, workdir)`. -/
def Toolchain.runBuild (job : Json F) (w : W) : W × Except RoundError (Json F) :=
  if T.image.isNone then (w, .error (.runtime imageMissing))
  else
    let r := T.main (encode (dumps plain job)) w
    if T.timedOut then (r.1, .error .timeout)
    else match r.2, T.reported with
      | some out, true =>
          match loads out with
          | some v => (r.1, .ok v)
          | none => (r.1, .ok (infraJson (py "worker produced non-JSON stdout: " ++
              reprBytes (out.take 400))))
      -- an exception in the worker is a return code for the host
      | _, _ => (r.1, .ok (infraJson T.infra))

/-- `_check(r, what, key)`. -/
def check (what key : PyStr) (r : Json F) : Except RoundError Unit :=
  match r.obj? with
  | none => .error .other
  | some d =>
      match d.lookup (py "stage"), d.lookup (py "detail") with
      | some _, some detail =>
          .error (.runtime (py "corpus " ++ what ++ py " container failed: " ++ pyStr detail))
      | some _, none => .error .other
      | none, _ =>
          match (d.lookup (py "results")).bind Json.arr? with
          | none => .error .other
          | some rs =>
              match rs.mapM fun j => (j.get? (py "rc")).map fun rc => (j, rc) with
              | none => .error .other
              | some rcs =>
                  -- `bad[0]`
                  match rcs.find? fun e => !pyEq e.2 (.int 0) with
                  | none => .ok ()
                  | some (j, _) =>
                      match j.get? key, j.get? (py "stderr") with
                      | some out, some stderr =>
                          .error (.runtime (py "corpus " ++ what ++ py " failed for " ++
                            pyStr out ++ py ": " ++ pyStr stderr))
                      | _, _ => .error .other

/-- A job and the check of its result. -/
def Toolchain.round (what key : PyStr) (job : Json F) (w : W) : W × Except RoundError Unit :=
  match T.runBuild job w with
  | (w, .error e) => (w, .error e)
  | (w, .ok r) => (w, check what key r)

/-! ### The jobs of a build -/

/-- `CFLAGS`. -/
def buildFlags : List PyStr :=
  [py "-static", py "-fno-pie", py "-no-pie", py "-g0", py "-fno-stack-protector"]

/-- The path of the source, from `src/`. -/
def Slot.source (s : Slot) : PyStr := py "reschema/corpus/seeds/" ++ s.seed ++ py ".c"

/-- The job of a slot. -/
def Slot.job (s : Slot) : Json F :=
  .obj [(py "src_path", .str s.source), (py "out", .str s.path), (py "compiler", .str s.compiler),
    (py "flags", strs (s.opt :: buildFlags))]

/-- `{"mode": "compile", "jobs": jobs}`. -/
def compileJob (plan : List Slot) : Json F :=
  .obj [(py "mode", .str (py "compile")), (py "jobs", .arr (plan.map Slot.job))]

/-- `{"mode": "strip", "files": to_strip}`. -/
def stripJob (plan : List Slot) : Json F :=
  .obj [(py "mode", .str (py "strip")), (py "files", strs (plan.map Slot.path))]

/-- The command of a slot. -/
def Slot.compileArgv (s : Slot) : List PyStr :=
  s.compiler :: (s.opt :: buildFlags ++ [py "/app/" ++ s.source, py "-o", py "/work/" ++ s.path])

/-- The command that strips it. -/
def Slot.stripArgv (s : Slot) : List PyStr := [py "strip", py "-s", py "/work/" ++ s.path]

end Host

/-! ### What a round comes to -/

section Runs

variable {F W : Type} {T : Toolchain F W}

/-- The commands in their order, up to an exception, with their return codes and texts. -/
def Toolchain.runs (T : Toolchain F W) : List (List PyStr) → W → W × Option (List (ℤ × PyStr))
  | [], w => (w, some [])
  | argv :: argvs, w =>
      match T.sh argv w with
      | .raised w => (w, none)
      | .done rc stderr _ _ w =>
          let rest := T.runs argvs w
          (rest.1, rest.2.map ((rc, stderr) :: ·))

/-- The check of the commands, each with the name of its output. -/
def Toolchain.verdict (T : Toolchain F W) (what : PyStr) (cmds : List (PyStr × List PyStr)) (w : W) :
    W × Except RoundError Unit :=
  let r := T.runs (cmds.map Prod.snd) w
  (r.1, if T.timedOut then .error .timeout
    else match r.2, T.reported with
      | some ends, true =>
          match ((cmds.map Prod.fst).zip ends).find? fun e => e.2.1 ≠ 0 with
          | none => .ok ()
          | some (out, _, stderr) => .error (.runtime (py "corpus " ++ what ++ py " failed for " ++
              out ++ py ": " ++ stderr))
      | _, _ => .error (.runtime (py "corpus " ++ what ++ py " container failed: " ++ T.infra)))

/-- The commands come to their ends with return code zero, and the report arrives in time. -/
structure Toolchain.Succeeds (T : Toolchain F W) (argvs : List (List PyStr)) (w : W) : Prop where
  image : T.image.isSome = true
  inTime : T.timedOut = false
  reported : T.reported = true
  zero : ∃ ends, (T.runs argvs w).2 = some ends ∧ ∀ e ∈ ends, e.1 = 0

/-- An entry of the results. -/
def resultJson (key : PyStr) (e : PyStr × ℤ × PyStr) : Json F :=
  .obj [(key, .str e.1), (py "rc", .int e.2.1), (py "stderr", .str e.2.2)]

theorem overJobs_runs {step : Json F → W → W × Option (Json F)} {key : PyStr} {js : List (Json F)}
    {cmds : List (PyStr × List PyStr)}
    (h : List.Forall₂ (fun j c => ∀ w, step j w = T.entry key c.1 c.2 w) js cmds) (w : W) :
    overJobs step js w = ((T.runs (cmds.map Prod.snd) w).1,
      (T.runs (cmds.map Prod.snd) w).2.map fun ends =>
        ((cmds.map Prod.fst).zip ends).map (resultJson key)) := by
  induction h generalizing w with
  | nil => rfl
  | @cons j c js cmds hj _ ih =>
      rw [overJobs, hj, Toolchain.entry, List.map_cons, List.map_cons, Toolchain.runs]
      rcases T.sh c.2 w with ⟨rc, stderr, -, -, w'⟩ | w'
      · dsimp only
        rw [ih]
        rcases (T.runs (cmds.map Prod.snd) w').2 with - | ends
        · rfl
        · rfl
      · rfl

/-- The texts and codes are fit for JSON. -/
theorem runs_spec {argvs : List (List PyStr)} {w : W} {ends : List (ℤ × PyStr)}
    (h : (T.runs argvs w).2 = some ends) :
    ends.length = argvs.length ∧ ∀ e ∈ ends, e.1.natAbs < 2 ^ 33 ∧ NoSurrogate e.2 := by
  induction argvs generalizing w ends with
  | nil =>
      obtain rfl := Option.some.inj h
      exact ⟨rfl, fun _ h => absurd h List.not_mem_nil⟩
  | cons argv argvs ih =>
      rw [Toolchain.runs] at h
      rcases hsh : T.sh argv w with ⟨rc, stderr, hsmall, hscalar, w'⟩ | w'
      · rw [hsh] at h
        obtain ⟨rest, hrest, rfl⟩ := Option.map_eq_some_iff.mp h
        obtain ⟨hlen, hall⟩ := ih hrest
        exact ⟨by rw [List.length_cons, List.length_cons, hlen],
          List.forall_mem_cons.mpr ⟨⟨hsmall, hscalar⟩, hall⟩⟩
      · rw [hsh] at h
        cases h

variable [Runtime F] [LawfulRuntime F]

/-- The results are read back. -/
theorem loads_results {key : PyStr} (hkey : IsAscii key)
    (hne : key ≠ py "rc" ∧ key ≠ py "stderr") {es : List (PyStr × ℤ × PyStr)}
    (h : ∀ e ∈ es, joinPairs e.1 = e.1 ∧ e.2.1.natAbs < 2 ^ 33 ∧ NoSurrogate e.2.2) :
    loads (encode (dumps plain (resultsJson (es.map (resultJson (F := F) key))))) =
      some (resultsJson (es.map (resultJson (F := F) key))) := by
  have hdepth := LawfulRuntime.maxDepth_le (F := F)
  refine loads_dumps plain_blank ?_ ?_
  · refine ⟨by omega, ⟨by omega, fitsList_iff.mpr (List.forall_mem_map.mpr fun e he => ?_)⟩, trivial⟩
    obtain ⟨-, hrc, -⟩ := h e he
    exact ⟨by omega, trivial, natAbs_lt_digits hrc, trivial, trivial⟩
  · refine ⟨List.nodup_singleton _, ⟨joinPairs_py (by decide),
      cleanList_iff.mpr (List.forall_mem_map.mpr fun e he => ?_)⟩, trivial⟩
    obtain ⟨hout, -, hscalar⟩ := h e he
    refine ⟨?_, ⟨joinPairs_of_ascii hkey, hout⟩, ⟨joinPairs_py (by decide), trivial⟩,
      ⟨joinPairs_py (by decide), joinPairs_scalar hscalar⟩, trivial⟩
    have hrc : py "rc" ≠ py "stderr" := by decide
    simp [Dict.keys, hne.1, hne.2, hrc]

omit [LawfulRuntime F] in
theorem check_results (what key : PyStr) (hne : key ≠ py "rc" ∧ key ≠ py "stderr")
    (es : List (PyStr × ℤ × PyStr)) :
    check what key (resultsJson (es.map (resultJson (F := F) key))) =
      match es.find? fun e => e.2.1 ≠ 0 with
      | none => .ok ()
      | some (out, _, stderr) => .error (.runtime (py "corpus " ++ what ++ py " failed for " ++
          out ++ py ": " ++ stderr)) := by
  have hlookups : ∀ e : PyStr × ℤ × PyStr, (resultJson (F := F) key e).get? (py "rc") =
        some (.int e.2.1) ∧ (resultJson (F := F) key e).get? key = some (.str e.1) ∧
      (resultJson (F := F) key e).get? (py "stderr") = some (.str e.2.2) := by
    intro e
    have hkey : (py "rc" == key) = false ∧ (py "stderr" == key) = false :=
      ⟨beq_eq_false_iff_ne.mpr hne.1.symm, beq_eq_false_iff_ne.mpr hne.2.symm⟩
    have hrc : (py "stderr" == py "rc") = false := by decide
    simp [resultJson, Json.get?, List.lookup_cons, hkey.1, hkey.2, hrc]
  -- each result has a return code, so `find?` looks at these only
  have hrcs : (es.map (resultJson (F := F) key)).mapM
      (fun j => (j.get? (py "rc")).map fun rc => (j, rc)) =
        some (es.map fun e => (resultJson key e, .int e.2.1)) := by
    rw [mapM_some, List.forall₂_map_left_iff, List.forall₂_map_right_iff, List.forall₂_same]
    exact fun e _ => by rw [(hlookups e).1, Option.map_some]
  have hstage : (py "stage" == py "results") = false ∧ (py "detail" == py "results") = false := by
    decide
  simp only [check, resultsJson, Json.obj?, List.lookup_cons, hstage.1, hstage.2, List.lookup_nil,
    beq_self_eq_true, Option.bind_some, Json.arr?, hrcs, List.find?_map]
  have hpred : ((fun e : Json F × Json F => !pyEq e.2 (.int 0)) ∘
      fun e : PyStr × ℤ × PyStr => (resultJson key e, .int e.2.1)) =
        fun e => decide (e.2.1 ≠ 0) := by
    funext e
    simp [pyEq, beq_eq_decide]
  rw [hpred]
  rcases hfind : es.find? (fun e => decide (e.2.1 ≠ 0)) with - | ⟨out, rc, stderr⟩
  · simp only [hfind, Option.map_none]
  · simp only [hfind, Option.map_some, (hlookups _).2.1, (hlookups _).2.2]
    rfl

omit [LawfulRuntime F] in
theorem check_infra (what key detail : PyStr) : check what key (infraJson detail : Json F) =
    .error (.runtime (py "corpus " ++ what ++ py " container failed: " ++ detail)) := by
  have hne : (py "detail" == py "stage") = false := by decide
  simp [check, infraJson, Json.obj?, List.lookup_cons, hne, pyStr]

/-- **The host gets to know of the commands what the worker saw of them.** -/
theorem round_verdict {what key : PyStr} (hkey : IsAscii key)
    (hne : key ≠ py "rc" ∧ key ≠ py "stderr") {cmds : List (PyStr × List PyStr)}
    (hout : ∀ c ∈ cmds, joinPairs c.1 = c.1) {job : Json F} {w : W} (himage : T.image.isSome)
    (hmain : T.main (encode (dumps plain job)) w = ((T.runs (cmds.map Prod.snd) w).1,
      (T.runs (cmds.map Prod.snd) w).2.map fun ends => encode (dumps plain
        (resultsJson (((cmds.map Prod.fst).zip ends).map (resultJson (F := F) key)))))) :
    T.round what key job w = T.verdict what cmds w := by
  have hsome : T.image.isNone = false := by
    rw [← Option.not_isSome, himage]
    rfl
  simp only [Toolchain.round, Toolchain.runBuild, hsome, hmain, Toolchain.verdict]
  rcases htime : T.timedOut with - | -
  swap
  · rfl
  rcases hruns : (T.runs (cmds.map Prod.snd) w).2 with - | ends
  · simp [check_infra]
  rcases hrep : T.reported with - | -
  · simp [check_infra]
  obtain ⟨-, hends⟩ := runs_spec hruns
  -- the report arrived
  have hfit : ∀ e ∈ (cmds.map Prod.fst).zip ends,
      joinPairs e.1 = e.1 ∧ e.2.1.natAbs < 2 ^ 33 ∧ NoSurrogate e.2.2 := by
    intro e he
    have hmem := List.of_mem_zip he
    obtain ⟨c, hc, hcout⟩ := List.mem_map.mp hmem.1
    exact ⟨hcout ▸ hout c hc, hends _ hmem.2⟩
  simp only [Option.map_some, Bool.false_eq_true, if_false, loads_results (F := F) hkey hne hfit,
    check_results what key hne]

end Runs

/-! ### The rounds of a build -/

/-- A slot of the matrix, for a seed whose name has no surrogates. -/
structure Slot.Scalar (s : Slot) : Prop where
  seed : NoSurrogate s.seed
  compiler : s.compiler ∈ compilers
  opt : s.opt ∈ opts

theorem noSurrogate_append {s t : PyStr} (hs : NoSurrogate s) (ht : NoSurrogate t) :
    NoSurrogate (s ++ t) := List.forall_mem_append.mpr ⟨hs, ht⟩

theorem Slot.Scalar.path {s : Slot} (h : s.Scalar) : NoSurrogate s.path := by
  obtain ⟨seed, compiler, opt, strip⟩ := s
  have hall : ∀ cc ∈ compilers, ∀ opt ∈ opts, ∀ strip : Bool,
      ((py "/" ++ Slot.text ⟨[], cc, opt, strip⟩ ++ py "/prog").all fun c => !isSurrogate c) =
        true := by
    decide +kernel
  have htail := hall compiler h.compiler opt h.opt strip
  rw [List.all_eq_true] at htail
  show NoSurrogate (seed ++ py "/" ++ Slot.text ⟨[], compiler, opt, strip⟩ ++ py "/prog")
  rw [List.append_assoc, List.append_assoc]
  refine noSurrogate_append h.seed fun c hc => ?_
  rw [← List.append_assoc] at hc
  simpa using htail c hc

theorem Slot.Scalar.source {s : Slot} (h : s.Scalar) : NoSurrogate s.source :=
  noSurrogate_append (noSurrogate_append (printable_py (by decide)).noSurrogate h.seed)
    (printable_py (by decide)).noSurrogate

section Rounds

variable {F W : Type} [Runtime F] [LawfulRuntime F] {T : Toolchain F W} {plan : List Slot}

theorem loads_compileJob (hplan : ∀ s ∈ plan, s.Scalar) :
    loads (encode (dumps plain (compileJob plan : Json F))) = some (compileJob plan : Json F) := by
  have hdepth := LawfulRuntime.maxDepth_le (F := F)
  have hconst : ∀ t ∈ compilers ++ opts ++ buildFlags, joinPairs t = t := by decide +kernel
  refine loads_dumps plain_blank ?_ ?_
  · refine ⟨by omega, trivial, ⟨by omega,
      fitsList_iff.mpr (List.forall_mem_map.mpr fun s _ => ?_)⟩, trivial⟩
    exact ⟨by omega, trivial, trivial, trivial,
      ⟨by omega, fitsList_iff.mpr (List.forall_mem_map.mpr fun _ _ => trivial)⟩, trivial⟩
  · refine ⟨by simp [Dict.keys], ⟨joinPairs_py (by decide), joinPairs_py (by decide)⟩,
      ⟨joinPairs_py (by decide), cleanList_iff.mpr (List.forall_mem_map.mpr fun s hs => ?_)⟩,
      trivial⟩
    have hslot := hplan s hs
    have hflags : ∀ t ∈ s.opt :: buildFlags, joinPairs t = t := by
      refine List.forall_mem_cons.mpr ⟨hconst _ ?_, fun t ht => hconst t ?_⟩
      · simp [hslot.opt]
      · simp [ht]
    exact ⟨by simp [Dict.keys], ⟨joinPairs_py (by decide), joinPairs_scalar hslot.source⟩,
      ⟨joinPairs_py (by decide), joinPairs_scalar hslot.path⟩,
      ⟨joinPairs_py (by decide), hconst _ (by simp [hslot.compiler])⟩,
      ⟨joinPairs_py (by decide), cleanList_iff.mpr (List.forall_mem_map.mpr hflags)⟩, trivial⟩

theorem loads_stripJob (hplan : ∀ s ∈ plan, s.Scalar) :
    loads (encode (dumps plain (stripJob plan : Json F))) = some (stripJob plan : Json F) := by
  have hdepth := LawfulRuntime.maxDepth_le (F := F)
  refine loads_dumps plain_blank ?_ ?_
  · exact ⟨by omega, trivial, ⟨by omega,
      fitsList_iff.mpr (List.forall_mem_map.mpr fun _ _ => trivial)⟩, trivial⟩
  · refine ⟨by simp [Dict.keys], ⟨joinPairs_py (by decide), joinPairs_py (by decide)⟩,
      ⟨joinPairs_py (by decide), cleanList_iff.mpr (List.forall_mem_map.mpr
        (List.forall_mem_map.mpr fun s hs => ?_))⟩, trivial⟩
    exact joinPairs_scalar (hplan s hs).path

omit [Runtime F] [LawfulRuntime F] in
/-- The worker takes a job for the command of its slot. -/
theorem compileOne_job (s : Slot) (w : W) :
    T.compileOne s.job w = T.entry (py "out") s.path s.compileArgv w := by
  have hrelative : ¬ py "/" <+: s.source := by
    rintro ⟨t, ht⟩
    have hhead : ch '/' = ch 'r' := (List.cons.inj ht).1
    exact absurd hhead (by decide)
  have hout : (s.job : Json F).get? (py "out") = some (.str s.path) := rfl
  have hsource : jobSource (s.job : Json F) (.str s.path) = some (py "/app/" ++ s.source, none) := by
    show some (if py "/" <+: s.source then s.source else py "/app/" ++ s.source, none) = _
    rw [if_neg hrelative]
  have hargv : jobArgv (s.job : Json F) (py "/app/" ++ s.source) s.path = some s.compileArgv := by
    show (do
      let flags ← (strs (s.opt :: buildFlags) : Json F).strs?
      return s.compiler :: (flags ++ [py "/app/" ++ s.source, py "-o", py "/work/" ++ s.path])) = _
    rw [Json.strs?_strs]
    rfl
  simp only [Toolchain.compileOne, hout, Option.getD_some, hsource, Option.bind_some, Json.str?,
    hargv]

omit [LawfulRuntime F] in
/-- The worker runs the mode of the job that it read. -/
theorem main_mode {job : Dict (Json F)} {mode : PyStr}
    (hread : loads (encode (dumps plain (.obj job))) = some (.obj job : Json F))
    (hmode : job.lookup (py "mode") = some (.str mode)) (w : W) :
    T.main (F := F) (encode (dumps plain (.obj job))) w = ((T.runMode job (.str mode) w).1,
      (T.runMode job (.str mode) w).2.map fun out => encode (dumps plain out)) := by
  simp only [Toolchain.main, hread, Option.bind_some, Json.obj?, hmode]

/-- **The compile round is its commands.** -/
theorem compile_round (himage : T.image.isSome) (hplan : ∀ s ∈ plan, s.Scalar) (w : W) :
    T.round (F := F) (py "compile") (py "out") (compileJob plan) w =
      T.verdict (py "compile") (plan.map fun s => (s.path, s.compileArgv)) w := by
  have hjobs : List.Forall₂ (fun j (c : PyStr × List PyStr) =>
      ∀ w, T.compileOne j w = T.entry (F := F) (py "out") c.1 c.2 w)
      (plan.map Slot.job) (plan.map fun s => (s.path, s.compileArgv)) := by
    rw [List.forall₂_map_left_iff, List.forall₂_map_right_iff, List.forall₂_same]
    exact fun s _ => compileOne_job s
  apply round_verdict (printable_py (by decide)).isAscii (by decide) _ himage
  · rw [compileJob, main_mode (loads_compileJob hplan) rfl]
    show ((overJobs T.compileOne (plan.map Slot.job) w).1,
      ((overJobs T.compileOne (plan.map Slot.job) w).2.map resultsJson).map _) = _
    rw [overJobs_runs hjobs, Option.map_map, Option.map_map]
    rfl
  · exact List.forall_mem_map.mpr fun s hs => joinPairs_scalar (hplan s hs).path

/-- **The strip round is its commands.** -/
theorem strip_round (himage : T.image.isSome) (hplan : ∀ s ∈ plan, s.Scalar) (w : W) :
    T.round (F := F) (py "strip") (py "file") (stripJob plan) w =
      T.verdict (py "strip") (plan.map fun s => (s.path, s.stripArgv)) w := by
  have hfiles : List.Forall₂ (fun j (c : PyStr × List PyStr) =>
      ∀ w, T.stripOne j w = T.entry (F := F) (py "file") c.1 c.2 w)
      ((plan.map Slot.path).map Json.str) (plan.map fun s => (s.path, s.stripArgv)) := by
    rw [List.map_map, List.forall₂_map_left_iff, List.forall₂_map_right_iff, List.forall₂_same]
    exact fun s _ w => rfl
  apply round_verdict (printable_py (by decide)).isAscii (by decide) _ himage
  · rw [stripJob, main_mode (loads_stripJob hplan) rfl]
    show ((overJobs T.stripOne ((plan.map Slot.path).map Json.str) w).1,
      ((overJobs T.stripOne ((plan.map Slot.path).map Json.str) w).2.map resultsJson).map _) = _
    rw [overJobs_runs hfiles, Option.map_map, Option.map_map]
    rfl
  · exact List.forall_mem_map.mpr fun s hs => joinPairs_scalar (hplan s hs).path

end Rounds

/-! ### A build over the wire -/

section Build

variable {F : Type} [Runtime F]

/-- `build(out_root, seed_ids, matrix)` over the two containers of its rounds. -/
def buildOver (T T' : Toolchain F Files) (code : Code) (flt : Filters) (root : Root) :
    Root × Except (RoundError ⊕ BuildError) (List Entry) :=
  let plan := planOf code flt
  if plan = [] then (root, .ok [])
  else
    let compiled := T.round (py "compile") (py "out") (compileJob plan : Json F) root.files
    match compiled.2 with
    | .error err => ({ root with files := compiled.1 }, .error (.inl err))
    | .ok () =>
      match plan.mapM (entryOf compiled.1) with
      | .error err => ({ root with files := compiled.1 }, .error (.inr err))
      | .ok built =>
        let toStrip := plan.filter Slot.strip
        let round := if toStrip = [] then (compiled.1, .ok ()) else
          T'.round (py "strip") (py "file") (stripJob toStrip : Json F) compiled.1
        match round.2 with
        | .error err => ({ root with files := round.1 }, .error (.inl err))
        | .ok () =>
          match sortEntries (Dict.update (oldManifest flt root)
            (built.map fun e => (e.taskId, e))) with
          | .error err => ({ root with files := round.1 }, .error (.inr err))
          | .ok manifest => (⟨round.1, some manifest, some code.version⟩, .ok built)

end Build

section Refine

variable {F : Type} {T : Toolchain F Files}

/-- The files afterwards. -/
def ShEnd.files {W : Type} : ShEnd W → W
  | .done _ _ _ _ w => w
  | .raised w => w

/-- The return code. -/
def ShEnd.rc? {W : Type} : ShEnd W → Option ℤ
  | .done rc _ _ _ _ => some rc
  | .raised _ => none

/-- What is known of the commands: one touches the path of its output only, a compiler that
succeeds leaves an unstripped binary there, and a strip that succeeds strips it. -/
structure Toolchain.Builds (T : Toolchain F Files) : Prop where
  compile : ∀ (s : Slot) (fs : Files), ∃ residue,
    (T.sh s.compileArgv fs).files = fs.leave s.path residue ∧
    ((T.sh s.compileArgv fs).rc? = some 0 → ∃ image, residue = some (some ⟨image, false⟩))
  strip : ∀ (s : Slot) (fs : Files), ∃ residue,
    (T.sh s.stripArgv fs).files = fs.leave s.path residue ∧
    ((T.sh s.stripArgv fs).rc? = some 0 →
      residue = some ((fs s.path).map fun b => { b with stripped := true }))

/-- A round of `Corpus`, by what one command does: the files, and the return code if it has one. -/
def overSlots (step : Slot → Files → Files × Option ℤ) :
    List Slot → Files → Files × Option (List ℤ)
  | [], fs => (fs, some [])
  | s :: plan, fs =>
      match step s fs with
      | (fs, none) => (fs, none)
      | (fs, some rc) =>
          let r := overSlots step plan fs
          (r.1, r.2.map (rc :: ·))

/-- One compile command of `Corpus`. -/
def CompileOutcome.step (o : CompileOutcome) (s : Slot) (fs : Files) : Files × Option ℤ :=
  match o with
  | .wrote image => (fs.leave s.path (some (some ⟨image, false⟩)), some 0)
  | .failed rc _ residue => (fs.leave s.path residue, some rc)
  | .died residue => (fs.leave s.path residue, none)

/-- One strip command of `Corpus`. -/
def StripOutcome.step (o : StripOutcome) (s : Slot) (fs : Files) : Files × Option ℤ :=
  match o with
  | .stripped =>
      (fs.leave s.path (some ((fs s.path).map fun b => { b with stripped := true })), some 0)
  | .failed rc _ residue => (fs.leave s.path residue, some rc)
  | .died residue => (fs.leave s.path residue, none)

theorem compileJobs_overSlots (c : Container) (plan : List Slot) (fs : Files) :
    compileJobs c plan fs = overSlots (fun s => (c.compile s).step s) plan fs := by
  induction plan generalizing fs with
  | nil => rfl
  | cons s plan ih =>
      rw [compileJobs, overSlots]
      rcases c.compile s with image | ⟨rc, hrc, residue⟩ | residue
      · simp only [CompileOutcome.step, ih]
      · simp only [CompileOutcome.step, ih]
      · rfl

theorem stripFiles_overSlots (c : Container) (plan : List Slot) (fs : Files) :
    stripFiles c plan fs = overSlots (fun s => (c.strip s).step s) plan fs := by
  induction plan generalizing fs with
  | nil => rfl
  | cons s plan ih =>
      rw [stripFiles, overSlots]
      rcases c.strip s with - | ⟨rc, hrc, residue⟩ | residue
      · simp only [StripOutcome.step, ih]
      · simp only [StripOutcome.step, ih]
      · rfl

/-- Where each command ends in one of the ways `O`, all of them do: a slot comes once, so the way
its command ends does not depend on the files. -/
theorem exists_outcomes {O : Type} [Inhabited O] {argv : Slot → List PyStr}
    {step : O → Slot → Files → Files × Option ℤ}
    (h : ∀ s fs, ∃ o, step o s fs = ((T.sh (argv s) fs).files, (T.sh (argv s) fs).rc?))
    {plan : List Slot} (hplan : plan.Nodup) (fs : Files) :
    ∃ f : Slot → O, overSlots (fun s => step (f s) s) plan fs =
      ((T.runs (plan.map argv) fs).1, (T.runs (plan.map argv) fs).2.map (List.map Prod.fst)) := by
  suffices ∃ f : Slot → O, ∀ g : Slot → O, (∀ s ∈ plan, g s = f s) →
      overSlots (fun s => step (g s) s) plan fs =
        ((T.runs (plan.map argv) fs).1, (T.runs (plan.map argv) fs).2.map (List.map Prod.fst)) from
    this.imp fun f hf => hf f fun _ _ => rfl
  induction plan generalizing fs with
  | nil => exact ⟨fun _ => default, fun _ _ => rfl⟩
  | cons s plan ih =>
      obtain ⟨hs, hplan⟩ := List.nodup_cons.mp hplan
      obtain ⟨o, ho⟩ := h s fs
      obtain ⟨f, hf⟩ := ih hplan (T.sh (argv s) fs).files
      -- the slot does not come again, so its outcome may be set apart
      refine ⟨Function.update f s o, fun g hg => ?_⟩
      have hgs : g s = o := (hg s List.mem_cons_self).trans (Function.update_self ..)
      have hrest := hf g fun t ht => by
        rw [hg t (List.mem_cons_of_mem s ht)]
        exact Function.update_of_ne (fun heq : t = s => hs (heq ▸ ht)) ..
      rw [overSlots, hgs, ho, List.map_cons, Toolchain.runs]
      rcases hsh : T.sh (argv s) fs with ⟨rc, stderr, hsmall, hscalar, fs'⟩ | fs'
      · rw [hsh] at hrest
        simp only [ShEnd.files, ShEnd.rc?] at hrest ⊢
        rw [hrest, Option.map_map, Option.map_map]
        rfl
      · rfl

theorem exists_compile (hT : T.Builds) (s : Slot) (fs : Files) : ∃ o : CompileOutcome,
    o.step s fs = ((T.sh s.compileArgv fs).files, (T.sh s.compileArgv fs).rc?) := by
  obtain ⟨residue, hfiles, hzero⟩ := hT.compile s fs
  rw [hfiles]
  rcases hrc : (T.sh s.compileArgv fs).rc? with - | rc
  · exact ⟨.died residue, rfl⟩
  by_cases h : rc = 0
  · subst h
    obtain ⟨image, rfl⟩ := hzero hrc
    exact ⟨.wrote image, rfl⟩
  · exact ⟨.failed rc h residue, rfl⟩

theorem exists_strip (hT : T.Builds) (s : Slot) (fs : Files) : ∃ o : StripOutcome,
    o.step s fs = ((T.sh s.stripArgv fs).files, (T.sh s.stripArgv fs).rc?) := by
  obtain ⟨residue, hfiles, hzero⟩ := hT.strip s fs
  rw [hfiles]
  rcases hrc : (T.sh s.stripArgv fs).rc? with - | rc
  · exact ⟨.died residue, rfl⟩
  by_cases h : rc = 0
  · subst h
    obtain rfl := hzero hrc
    exact ⟨.stripped, rfl⟩
  · exact ⟨.failed rc h residue, rfl⟩

/-- The check of a round finds what `_check` finds. -/
theorem verdict_ok_iff {argv : Slot → List PyStr} {what : PyStr} {plan : List Slot} {fs : Files}
    {fault failed : BuildError} :
    (T.verdict what (plan.map fun s => (s.path, argv s)) fs).2 = .ok () ↔
      checkRound fault failed (T.reported && !T.timedOut)
        ((T.runs (plan.map argv) fs).2.map (List.map Prod.fst)) = .ok () := by
  have hsnd : (plan.map fun s => (s.path, argv s)).map Prod.snd = plan.map argv := by
    rw [List.map_map]
    rfl
  rw [checkRound_ok_iff, Toolchain.verdict, hsnd]
  -- a container that timed out, died or did not report has failed, whatever it ran
  rcases T.timedOut with - | -
  swap
  · simp
  rcases hruns : (T.runs (plan.map argv) fs).2 with - | ends
  · simp
  rcases T.reported with - | -
  · simp
  have hlen := (runs_spec hruns).1
  have hsnd : (((plan.map fun s => (s.path, argv s)).map Prod.fst).zip ends).map Prod.snd = ends :=
    List.map_snd_zip (by simp [hlen])
  -- the paths are only for the message
  have hzero : (∀ rc ∈ ends.map Prod.fst, rc = 0) ↔
      ∀ e ∈ ((plan.map fun s => (s.path, argv s)).map Prod.fst).zip ends, e.2.1 = 0 := by
    conv_lhs => rw [← hsnd]
    rw [List.map_map, List.forall_mem_map]
    rfl
  simp only [Bool.false_eq_true, if_false, Bool.not_false, Bool.and_true, true_and,
    Option.map_some, Option.some.injEq, exists_eq_left', hzero]
  generalize ((plan.map fun s => (s.path, argv s)).map Prod.fst).zip ends = es
  rcases hfind : es.find? (fun e => decide (e.2.1 ≠ 0)) with - | ⟨out, rc, stderr⟩
  · apply iff_of_true
    · simp only [hfind]
    · simpa using List.find?_eq_none.mp hfind
  · apply iff_of_false
    · simp only [hfind]
      rintro ⟨⟩
    · intro hall
      have hne := List.find?_some hfind
      exact of_decide_eq_true hne (hall _ (List.mem_of_find?_eq_some hfind))

/-- It finds nothing exactly where the commands succeed. -/
theorem verdict_succeeds {argv : Slot → List PyStr} {what : PyStr} {plan : List Slot} {fs : Files}
    (himage : T.image.isSome = true) :
    (T.verdict what (plan.map fun s => (s.path, argv s)) fs).2 = .ok () ↔
      T.Succeeds (plan.map argv) fs := by
  have hok : (T.verdict what (plan.map fun s => (s.path, argv s)) fs).2 = .ok () ↔
      checkRound .compileFault .compileFailed (T.reported && !T.timedOut)
        ((T.runs (plan.map argv) fs).2.map (List.map Prod.fst)) = .ok () := verdict_ok_iff
  rw [hok, checkRound_ok_iff, Bool.and_eq_true, Bool.not_eq_true']
  constructor
  · rintro ⟨⟨hreported, htime⟩, rcs, hrcs, hzero⟩
    obtain ⟨ends, hends, rfl⟩ := Option.map_eq_some_iff.mp hrcs
    exact ⟨himage, htime, hreported, ends, hends, List.forall_mem_map.mp hzero⟩
  · rintro ⟨-, htime, hreported, ends, hends, hzero⟩
    refine ⟨⟨hreported, htime⟩, ends.map Prod.fst, ?_, List.forall_mem_map.mpr hzero⟩
    rw [hends, Option.map_some]

/-- **A round is one of `Corpus`.**  Without an image nothing runs, as in a container that goes down
at once. -/
theorem exists_round {O : Type} [Inhabited O] {argv : Slot → List PyStr} {what : PyStr}
    {step : O → Slot → Files → Files × Option ℤ}
    (h : ∀ s fs, ∃ o, step o s fs = ((T.sh (argv s) fs).files, (T.sh (argv s) fs).rc?))
    {idle : O} (hidle : ∀ s fs, step idle s fs = (fs, none))
    {plan : List Slot} (hplan : plan.Nodup) (hne : plan ≠ [])
    {round : Files → Files × Except RoundError Unit}
    (hround : T.image.isSome → ∀ fs, round fs =
      T.verdict what (plan.map fun s => (s.path, argv s)) fs)
    (hmissing : T.image = none → ∀ fs, round fs = (fs, .error (.runtime imageMissing)))
    (fs : Files) : ∃ (f : Slot → O) (reported : Bool),
      (round fs).1 = (overSlots (fun s => step (f s) s) plan fs).1 ∧
      ∀ fault failed, ((round fs).2 = .ok () ↔
        checkRound fault failed reported (overSlots (fun s => step (f s) s) plan fs).2 = .ok ()) := by
  rcases himage : T.image with - | id
  · refine ⟨fun _ => idle, false, ?_, fun fault failed => ?_⟩
    all_goals
      obtain ⟨s, plan, rfl⟩ := List.exists_cons_of_ne_nil hne
      rw [hmissing himage, overSlots, hidle]
    apply iff_of_false
    · simp
    · rintro ⟨⟩
  · obtain ⟨f, hf⟩ := exists_outcomes h hplan fs
    refine ⟨f, T.reported && !T.timedOut, ?_, fun fault failed => ?_⟩
    all_goals rw [hround (by rw [himage]; rfl), hf]
    · show (T.runs _ fs).1 = _
      rw [List.map_map]
      rfl
    · exact verdict_ok_iff

end Refine

/-- The slots of a plan are all there once. -/
theorem planOf_nodup {code : Code} (h : code.seeds.Nodup) (flt : Filters) :
    (planOf code flt).Nodup := by
  apply List.Nodup.filter
  rw [Code.slots, List.nodup_flatMap]
  refine ⟨fun seed _ => ?_, h.imp fun {seed seed'} hne => ?_⟩
  · apply List.Nodup.of_map fun s : Slot => (s.compiler, s.opt, s.strip)
    show (compilers.flatMap fun cc => opts.flatMap fun opt =>
      [(cc, opt, false), (cc, opt, true)]).Nodup
    decide +kernel
  · show List.Disjoint _ _
    intro s hs hs'
    simp only [List.mem_flatMap, List.mem_map] at hs hs'
    obtain ⟨_, -, _, -, _, -, rfl⟩ := hs
    obtain ⟨_, -, _, -, _, -, heq⟩ := hs'
    exact hne (congrArg Slot.seed heq).symm

/-- Without an image no round is run. -/
theorem round_missing {F W : Type} [Runtime F] {T : Toolchain F W} (h : T.image = none)
    (what key : PyStr) (job : Json F) (w : W) :
    T.round what key job w = (w, .error (.runtime imageMissing)) := by
  simp only [Toolchain.round, Toolchain.runBuild, h, Option.isNone_none, if_true]

section Refines

variable {F : Type} [Runtime F] [LawfulRuntime F] {T : Toolchain F Files} {plan : List Slot}

/-- The first round. -/
theorem compile_refines (hT : T.Builds) (hnodup : plan.Nodup) (hne : plan ≠ [])
    (hscalar : ∀ s ∈ plan, s.Scalar) (fs : Files) :
    ∃ (f : Slot → CompileOutcome) (reported : Bool), ∀ c : Container, c.compile = f →
      (T.round (py "compile") (py "out") (compileJob plan : Json F) fs).1 =
        (compileJobs c plan fs).1 ∧
      ((T.round (py "compile") (py "out") (compileJob plan : Json F) fs).2 = .ok () ↔
        checkRound .compileFault .compileFailed reported (compileJobs c plan fs).2 = .ok ()) := by
  have : Inhabited CompileOutcome := ⟨.died none⟩
  have hidle : ∀ s fs, (CompileOutcome.died none).step s fs = (fs, none) := fun _ _ => rfl
  obtain ⟨f, reported, hfiles, hok⟩ := exists_round (exists_compile hT) hidle hnodup hne
    (fun himage fs => compile_round (F := F) himage hscalar fs)
    (fun himage fs => round_missing himage _ _ _ fs) fs
  refine ⟨f, reported, fun c hc => ?_⟩
  subst hc
  rw [compileJobs_overSlots]
  exact ⟨hfiles, hok _ _⟩

/-- The second round. -/
theorem strip_refines (hT : T.Builds) (hnodup : plan.Nodup) (hne : plan ≠ [])
    (hscalar : ∀ s ∈ plan, s.Scalar) (fs : Files) :
    ∃ (f : Slot → StripOutcome) (reported : Bool), ∀ c : Container, c.strip = f →
      (T.round (py "strip") (py "file") (stripJob plan : Json F) fs).1 = (stripFiles c plan fs).1 ∧
      ((T.round (py "strip") (py "file") (stripJob plan : Json F) fs).2 = .ok () ↔
        checkRound .stripFault .stripFailed reported (stripFiles c plan fs).2 = .ok ()) := by
  have : Inhabited StripOutcome := ⟨.died none⟩
  have hidle : ∀ s fs, (StripOutcome.died none).step s fs = (fs, none) := fun _ _ => rfl
  obtain ⟨f, reported, hfiles, hok⟩ := exists_round (exists_strip hT) hidle hnodup hne
    (fun himage fs => strip_round (F := F) himage hscalar fs)
    (fun himage fs => round_missing himage _ _ _ fs) fs
  refine ⟨f, reported, fun c hc => ?_⟩
  subst hc
  rw [stripFiles_overSlots]
  exact ⟨hfiles, hok _ _⟩

end Refines

section Succeeds

variable {F : Type} [Runtime F] [LawfulRuntime F] {T T' : Toolchain F Files} {plan : List Slot}

/-- The first round goes through exactly where its commands succeed. -/
theorem compile_succeeds (hscalar : ∀ s ∈ plan, s.Scalar) (fs : Files) :
    (T.round (py "compile") (py "out") (compileJob plan : Json F) fs).2 = .ok () ↔
      T.Succeeds (plan.map Slot.compileArgv) fs := by
  by_cases himage : T.image.isSome = true
  · rw [compile_round himage hscalar, verdict_succeeds himage]
  · rw [round_missing (Option.not_isSome_iff_eq_none.mp himage)]
    exact iff_of_false nofun fun h => himage h.image

/-- The second round, in the same way. -/
theorem strip_succeeds (hscalar : ∀ s ∈ plan, s.Scalar) (fs : Files) :
    (T.round (py "strip") (py "file") (stripJob plan : Json F) fs).2 = .ok () ↔
      T.Succeeds (plan.map Slot.stripArgv) fs := by
  by_cases himage : T.image.isSome = true
  · rw [strip_round himage hscalar, verdict_succeeds himage]
  · rw [round_missing (Option.not_isSome_iff_eq_none.mp himage)]
    exact iff_of_false nofun fun h => himage h.image

/-- The commands of both rounds succeed, the second ones on the files that the first ones leave. -/
def RoundsSucceed (T T' : Toolchain F Files) (plan : List Slot) (fs : Files) : Prop :=
  T.Succeeds (plan.map Slot.compileArgv) fs ∧ (plan.filter Slot.strip ≠ [] →
    T'.Succeeds ((plan.filter Slot.strip).map Slot.stripArgv)
      (T.runs (plan.map Slot.compileArgv) fs).1)

/-- A build that returns had its commands succeed, and one that had does not raise in a round. -/
theorem buildOver_rounds {code : Code} {flt : Filters} (hplan : planOf code flt ≠ [])
    (hscalar : ∀ s ∈ planOf code flt, s.Scalar) (root : Root) :
    ((∃ built, (buildOver T T' code flt root).2 = .ok built) →
      RoundsSucceed T T' (planOf code flt) root.files) ∧
    (RoundsSucceed T T' (planOf code flt) root.files →
      ∀ err, (buildOver T T' code flt root).2 ≠ .error (.inl err)) := by
  have hcompile := compile_succeeds (T := T) hscalar root.files
  have hfiles : T.Succeeds ((planOf code flt).map Slot.compileArgv) root.files →
      (T.round (py "compile") (py "out") (compileJob (planOf code flt) : Json F) root.files).1 =
        (T.runs ((planOf code flt).map Slot.compileArgv) root.files).1 := by
    intro h
    rw [compile_round h.image hscalar, Toolchain.verdict, List.map_map]
    rfl
  rw [buildOver, if_neg hplan]
  dsimp only
  generalize T.round (py "compile") (py "out") (compileJob (planOf code flt) : Json F)
    root.files = compiled at hcompile hfiles
  rcases hres : compiled.2 with err | ⟨⟩
  · -- the first round raises
    dsimp only
    constructor
    · rintro ⟨built, h⟩
      cases h
    · intro h
      rw [hcompile.mpr h.1] at hres
      cases hres
  have hfirst := hcompile.mp hres
  rw [hfiles hfirst]
  dsimp only
  rcases (planOf code flt).mapM (entryOf (T.runs _ root.files).1) with err | built
  · -- between the rounds
    dsimp only
    constructor
    · rintro ⟨built, h⟩
      cases h
    · rintro - err ⟨⟩
  dsimp only
  by_cases hnone : (planOf code flt).filter Slot.strip = []
  · rw [if_pos hnone]
    refine ⟨fun _ => ⟨hfirst, fun hne => absurd hnone hne⟩, fun _ err h => ?_⟩
    dsimp only at h
    split at h <;> cases h
  rw [if_neg hnone]
  have hstrips : ∀ s ∈ (planOf code flt).filter Slot.strip, s.Scalar :=
    fun s hs => hscalar s (List.mem_of_mem_filter hs)
  have hstrip := strip_succeeds (T := T') hstrips
    (T.runs ((planOf code flt).map Slot.compileArgv) root.files).1
  generalize T'.round (py "strip") (py "file")
    (stripJob ((planOf code flt).filter Slot.strip) : Json F) _ = stripped at hstrip ⊢
  rcases hres' : stripped.2 with err | ⟨⟩
  · -- the second round raises
    dsimp only
    constructor
    · rintro ⟨built, h⟩
      cases h
    · intro h
      rw [hstrip.mpr (h.2 hnone)] at hres'
      cases hres'
  · refine ⟨fun _ => ⟨hfirst, fun _ => hstrip.mp hres'⟩, fun _ err h => ?_⟩
    dsimp only at h
    split at h <;> cases h

end Succeeds

/-- The container of `Corpus` that a build over the wire goes like. -/
theorem exists_container {F : Type} [Runtime F] [LawfulRuntime F] {T T' : Toolchain F Files}
    (hT : T.Builds) (hT' : T'.Builds) {code : Code} (hdistinct : code.seeds.Nodup) {flt : Filters}
    (hscalar : ∀ s ∈ planOf code flt, s.Scalar) (root : Root) :
    ∃ c : Container, (build code c flt root).1 = (buildOver T T' code flt root).1 ∧
      (∀ built, (build code c flt root).2 = .ok built ↔
        (buildOver T T' code flt root).2 = .ok built) ∧
      ∀ err, (buildOver T T' code flt root).2 = .error (.inr err) →
        (build code c flt root).2 = .error err := by
  by_cases hnil : planOf code flt = []
  · refine ⟨⟨fun _ => .died none, false, fun _ => .died none, false⟩, ?_⟩
    rw [build, buildOver, if_pos hnil, if_pos hnil]
    simp
  have hnodup := planOf_nodup hdistinct flt
  obtain ⟨f, reported, hcompile⟩ := compile_refines hT hnodup hnil hscalar root.files
  generalize hcompiled : T.round (py "compile") (py "out")
    (compileJob (planOf code flt) : Json F) root.files = compiled at hcompile
  -- the strips, if there are any
  obtain ⟨f', reported', hstrip⟩ : ∃ (f' : Slot → StripOutcome) (reported' : Bool),
      (planOf code flt).filter Slot.strip ≠ [] → ∀ c : Container, c.strip = f' →
        (T'.round (py "strip") (py "file") (stripJob ((planOf code flt).filter Slot.strip) : Json F)
            compiled.1).1 = (stripFiles c ((planOf code flt).filter Slot.strip) compiled.1).1 ∧
        ((T'.round (py "strip") (py "file")
            (stripJob ((planOf code flt).filter Slot.strip) : Json F) compiled.1).2 = .ok () ↔
          checkRound .stripFault .stripFailed reported'
            (stripFiles c ((planOf code flt).filter Slot.strip) compiled.1).2 = .ok ()) := by
    by_cases hnone : (planOf code flt).filter Slot.strip = []
    · exact ⟨fun _ => .died none, false, fun h => absurd hnone h⟩
    · obtain ⟨f', reported', h⟩ := strip_refines hT' (hnodup.filter Slot.strip) hnone
        (fun s hs => hscalar s (List.mem_of_mem_filter hs)) compiled.1
      exact ⟨f', reported', fun _ => h⟩
  refine ⟨⟨f, reported, f', reported'⟩, ?_⟩
  obtain ⟨hfiles, hok⟩ := hcompile ⟨f, reported, f', reported'⟩ rfl
  rw [build, buildOver, if_neg hnil, if_neg hnil]
  simp only [hcompiled, ← hfiles]
  rcases hres : compiled.2 with err | ⟨⟩
  · -- the first round raises
    rcases hcheck : checkRound .compileFault .compileFailed reported
      (compileJobs ⟨f, reported, f', reported'⟩ (planOf code flt) root.files).2 with err' | ⟨⟩
    · simp
    · rw [hok.mpr hcheck] at hres
      cases hres
  rw [hok.mp hres]
  dsimp only
  rcases (planOf code flt).mapM (entryOf compiled.1) with err | built
  · simp
  dsimp only
  by_cases hnone : (planOf code flt).filter Slot.strip = []
  · rw [if_pos hnone, if_pos hnone]
    dsimp only
    generalize sortEntries _ = sorted
    rcases sorted with err | manifest
    · simp
    · simp
  rw [if_neg hnone, if_neg hnone]
  obtain ⟨hfiles', hok'⟩ := hstrip hnone ⟨f, reported, f', reported'⟩ rfl
  rw [← hfiles']
  rcases hres' : (T'.round (py "strip") (py "file")
    (stripJob ((planOf code flt).filter Slot.strip) : Json F) compiled.1).2 with err | ⟨⟩
  · -- the second round raises
    rcases hcheck : checkRound .stripFault .stripFailed reported'
      (stripFiles ⟨f, reported, f', reported'⟩ ((planOf code flt).filter Slot.strip)
        compiled.1).2 with err' | ⟨⟩
    · simp
    · rw [hok'.mpr hcheck] at hres'
      cases hres'
  rw [hok'.mp hres']
  dsimp only
  generalize sortEntries _ = sorted
  rcases sorted with err | manifest
  · simp
  · simp

/-- **A build over the wire is one of `Corpus`**: the root afterwards is the same, the one returns
what the other returns, and raises what it raises between the rounds.  It does not return unless
all commands succeed, and if they do it does not raise in a round. -/
theorem build_refines {F : Type} [Runtime F] [LawfulRuntime F] {T T' : Toolchain F Files}
    (hT : T.Builds) (hT' : T'.Builds) {code : Code} (hdistinct : code.seeds.Nodup)
    (hseeds : ∀ seed ∈ code.seeds, NoSurrogate seed) (flt : Filters) (root : Root) :
    (∃ c : Container, (build code c flt root).1 = (buildOver T T' code flt root).1 ∧
      (∀ built, (build code c flt root).2 = .ok built ↔
        (buildOver T T' code flt root).2 = .ok built) ∧
      ∀ err, (buildOver T T' code flt root).2 = .error (.inr err) →
        (build code c flt root).2 = .error err) ∧
    (planOf code flt ≠ [] →
      ((∃ built, (buildOver T T' code flt root).2 = .ok built) →
        RoundsSucceed T T' (planOf code flt) root.files) ∧
      (RoundsSucceed T T' (planOf code flt) root.files →
        ∀ err, (buildOver T T' code flt root).2 ≠ .error (.inl err))) := by
  have hscalar : ∀ s ∈ planOf code flt, s.Scalar := by
    intro s hs
    obtain ⟨hseed, hcompiler, hopt⟩ := mem_slots.mp (mem_planOf.mp hs).1
    exact ⟨hseeds _ hseed, hcompiler, hopt⟩
  exact ⟨exists_container hT hT' hdistinct hscalar root,
    fun hplan => buildOver_rounds hplan hscalar root⟩

/-! ### A toolchain that succeeds -/

/-- A toolchain with one image for every source, whose commands all succeed. -/
def steadyToolchain : Toolchain ZeroFloat Files where
  image := some (py "sha256:1")
  sh argv fs :=
    let path := (argv.getLast?.getD []).drop 6
    .done 0 [] (by decide) (fun _ h => absurd h List.not_mem_nil) (Function.update fs path
      (if argv.length = 3 then (fs path).map fun b => { b with stripped := true }
        else some ⟨⟨[(py "rot13", (0x401000, 1))], []⟩, false⟩))
  write _ _ fs := fs
  otherModes _ fs := (fs, none)
  timedOut := false
  reported := true
  returncode := 0
  stderr := []

theorem steady_builds : steadyToolchain.Builds where
  compile s fs := by
    have hpath : (s.compileArgv.getLast?.getD []).drop 6 = s.path := rfl
    refine ⟨some (some ⟨⟨[(py "rot13", (0x401000, 1))], []⟩, false⟩), ?_, fun _ => ⟨_, rfl⟩⟩
    show Function.update fs ((s.compileArgv.getLast?.getD []).drop 6) _ = _
    rw [hpath]
    rfl
  strip s fs := by
    have hpath : (s.stripArgv.getLast?.getD []).drop 6 = s.path := rfl
    refine ⟨some ((fs s.path).map fun b => { b with stripped := true }), ?_, fun _ => rfl⟩
    show Function.update fs ((s.stripArgv.getLast?.getD []).drop 6) _ = _
    rw [hpath]
    rfl

theorem steady_runs (argvs : List (List PyStr)) (fs : Files) :
    steadyToolchain.Succeeds argvs fs := by
  refine ⟨rfl, rfl, rfl, ?_⟩
  induction argvs generalizing fs with
  | nil => exact ⟨[], rfl, fun _ h => absurd h List.not_mem_nil⟩
  | cons argv argvs ih =>
      obtain ⟨ends, hends, hzero⟩ := ih (steadyToolchain.sh argv fs).files
      refine ⟨(0, []) :: ends, ?_, List.forall_mem_cons.mpr ⟨rfl, hzero⟩⟩
      rw [Toolchain.runs]
      show Option.map _ (steadyToolchain.runs argvs (steadyToolchain.sh argv fs).files).2 = _
      rw [hends]
      rfl

/-- One seed. -/
def rotCode : Code := ⟨py "2.1", [py "rot13"]⟩

theorem build_refines_steady :
    (∃ c : Container, (build rotCode c ⟨none, none⟩ Root.empty).1 =
        (buildOver steadyToolchain steadyToolchain rotCode ⟨none, none⟩ Root.empty).1 ∧
      ∀ built, (build rotCode c ⟨none, none⟩ Root.empty).2 = .ok built ↔
        (buildOver steadyToolchain steadyToolchain rotCode ⟨none, none⟩ Root.empty).2 =
          .ok built) ∧
    ∀ err, (buildOver steadyToolchain steadyToolchain rotCode ⟨none, none⟩ Root.empty).2 ≠
      .error (.inl err) := by
  have hdistinct : rotCode.seeds.Nodup := List.nodup_singleton _
  have hseeds : ∀ seed ∈ rotCode.seeds, NoSurrogate seed :=
    List.forall_mem_singleton.mpr (printable_py (by decide)).noSurrogate
  have hplan : planOf rotCode ⟨none, none⟩ ≠ [] := by decide +kernel
  obtain ⟨⟨c, hroot, hok, -⟩, hrounds⟩ :=
    build_refines steady_builds steady_builds hdistinct hseeds ⟨none, none⟩ Root.empty
  exact ⟨⟨c, hroot, hok⟩, (hrounds hplan).2 ⟨steady_runs _ _, fun _ => steady_runs _ _⟩⟩

end ReSchema
