/-
ReSchema/HonestReplay.lean

The replay inside the job (`REPLAY` in `checks/program_replay.py`).

The script compiles the model, records it on every case of `job.json` with the
recorder that the host uses, and prints one canonical trace for each.  Its
input and its output pass through JSON, where surrogate pairs are joined
(`Trace.joined`, `jobInput`).

`honest_replay_iff` is the verdict on a job that ran this script and nothing
else: the model passes exactly when it compiles, its traces fit the output of
the job, the hidden suite is full, and its traces have the observable behaviour
that the host recorded.
-/
import ReSchema.ReplaySound
import ReSchema.Py.Sorted

namespace ReSchema

open Py

/-! ### The script -/

/-- `CFLAGS`. -/
def cflags : List PyStr := [py "-O1", py "-static", py "-fno-pie", py "-no-pie", py "-g0"]

/-- The compiler of the image: what it says of a source it refuses, or the program. -/
abbrev Gcc := List PyStr → Bytes → Except PyStr Guest

section Script

variable (F : Type) [Runtime F]

/-- The value of `job.json`. -/
def jobValue (cases : List Input) : Json F :=
  .obj [(py "flags", strs cflags), (py "cases", .arr (cases.map fun c =>
    .obj [(py "argv", strs c.1), (py "stdin_hex", .str c.2)]))]

/-- `c["argv"], bytes.fromhex(c["stdin_hex"])`. -/
def readCaseInput {F : Type} (c : Json F) : Option (List PyStr × Bytes) := do
  let argv ← (← c.get? (py "argv")).strs?
  let stdin ← fromHex (← (← c.get? (py "stdin_hex")).str?)
  some (argv, stdin)

/-- The flags and the inputs that the script reads. -/
def readJob {F : Type} (job : Json F) : Option (List PyStr × List (List PyStr × Bytes)) := do
  let flags ← (← job.get? (py "flags")).strs?
  let cases ← (← job.get? (py "cases")).arr?
  some (flags, ← cases.mapM readCaseInput)

/-- The loop of the script, from its `k`-th recording on. -/
def replayFrom (model : Guest) : ℕ → List (List PyStr × Bytes) → List Trace
  | _, [] => []
  | k, (argv, stdin) :: cs =>
      recordAt F model (py "/work/model") k argv stdin :: replayFrom model (k + 1) cs

/-- The values that the script prints, `none` where it raises. -/
def replayValues (gcc : Gcc) (job : ReplayJob) : Option (List (Json F)) := do
  let v ← loads (F := F) (encode (dumps plain (jobValue F job.cases)))
  let (flags, inputs) ← readJob v
  match gcc flags (encode job.source) with
  | .error stderr => some [.obj [(py "compile", .str stderr)]]
  | .ok model => some ((replayFrom F model 0 inputs).map Trace.toJson)

/-- One line for each value. -/
def printedLines (vs : List (Json F)) : PyStr := vs.flatMap fun v => dumps plain v ++ [ch '\n']

theorem one_returncode_lt : (1 : ℤ).natAbs < 2 ^ 63 := by decide

/-- A job whose script raised. -/
def raisedJob : JobResult :=
  ⟨1, false, false, [], [], nil_stdout_le, nil_stderr_lt, one_returncode_lt⟩

/-- A job that runs the script, in time. -/
def replayJob (gcc : Gcc) (job : ReplayJob) : JobResult :=
  match replayValues F gcc job with
  | none => raisedJob
  | some vs => .printed (encode (printedLines F vs))

end Script

/-! ### Through JSON -/

/-- An event as it is read back. -/
def Event.joined (e : Event) : Event :=
  ⟨joinPairs e.phase, joinPairs e.sc, e.args.map joinPairs, e.result.map (·.map joinPairs)⟩

/-- A trace as it is read back: surrogate pairs are joined, and of files whose names become one
the last stands in the first place. -/
def Trace.joined (t : Trace) : Trace where
  argv0 := joinPairs t.argv0
  argv := t.argv.map joinPairs
  stdinHex := joinPairs t.stdinHex
  stdout := joinPairs t.stdout
  stderr := joinPairs t.stderr
  exitCode := t.exitCode
  filesWritten := Dict.update [] (t.filesWritten.map fun p => (joinPairs p.1, joinPairs p.2))
  events := t.events.map Event.joined

/-- The input of a recorded trace as the script reads it. -/
def jobInput (t : Trace) : List PyStr × Bytes :=
  (t.argv.map joinPairs, (fromHex t.stdinHex).getD [])

section Joined

variable {F : Type}

/-- A record, whose keys are fixed, is read back field by field. -/
theorem readBack_record {d : Dict (Json F)} (hkeys : ∀ k ∈ d.keys, joinPairs k = k)
    (hnodup : d.keys.Nodup) :
    (Json.obj d).joined.dedupe = .obj (d.map fun e => (e.1, e.2.joined.dedupe)) := by
  have hmap : (joinedDict d).map (fun e => (e.1, e.2.dedupe)) =
      d.map fun e => (e.1, e.2.joined.dedupe) := by
    rw [joinedDict_eq_map, List.map_map]
    apply List.map_congr_left
    intro e he
    show (joinPairs e.1, _) = _
    rw [hkeys e.1 (List.mem_map_of_mem he)]
  show Json.obj (Dict.update [] (dedupeDict (joinedDict d))) = _
  rw [dedupeDict_eq_map, hmap, Dict.update_nil]
  rw [Dict.keys, List.map_map]
  exact hnodup

theorem readBack_arr (xs : List (Json F)) :
    (Json.arr xs).joined.dedupe = .arr (xs.map fun x => x.joined.dedupe) := by
  show Json.arr _ = Json.arr _
  rw [joinedList_eq_map, dedupeList_eq_map, List.map_map]
  rfl

theorem readBack_strs (ss : List PyStr) :
    (strs ss : Json F).joined.dedupe = strs (ss.map joinPairs) := by
  rw [strs, readBack_arr, List.map_map, strs, List.map_map]
  rfl

theorem readBack_files (files : Dict PyStr) : (filesJson files : Json F).joined.dedupe =
    filesJson (Dict.update [] (files.map fun p => (joinPairs p.1, joinPairs p.2))) := by
  show Json.obj (Dict.update [] (dedupeDict (joinedDict (files.map fun p => (p.1, .str p.2))))) = _
  rw [filesJson, Dict.map_update, joinedDict_eq_map, dedupeDict_eq_map]
  simp only [List.map_map]
  rfl

theorem Event.joined_toJson (e : Event) :
    (e.toJson : Json F).joined.dedupe = e.joined.toJson := by
  obtain ⟨phase, sc, args, result⟩ := e
  have hkeys : ∀ k ∈ [py "phase", py "sc", py "args", py "result"], joinPairs k = k := by decide
  rcases result with - | - | r
  all_goals
    rw [Event.toJson, readBack_record]
    · simp [Event.joined, Event.toJson, readBack_strs, Json.joined, Json.dedupe]
    · intro k hk
      apply hkeys k
      simp only [Dict.keys, List.map_append, List.map_cons, List.map_nil, List.mem_append,
        List.mem_cons, List.not_mem_nil, or_false] at hk ⊢
      tauto
    · simp [Dict.keys]

/-- **A trace is read back joined.** -/
theorem Trace.joined_toJson (t : Trace) :
    (t.toJson : Json F).joined.dedupe = t.joined.toJson := by
  have hkeys : ∀ k ∈ [py "argv", py "stdin_hex", py "stdout", py "stderr", py "exit_code",
      py "files_written", py "events"], joinPairs k = k := by decide
  rw [Trace.toJson, readBack_record]
  · simp only [List.map_cons, List.map_nil, readBack_strs, readBack_files, readBack_arr,
      List.map_map, Function.comp_def, Event.joined_toJson, Trace.toJson, Trace.joined]
    rfl
  · exact hkeys
  · simp [Dict.keys]

theorem fits_strs (ss : List PyStr) {n : ℕ} (hn : 1 ≤ n) : (strs ss : Json F).Fits n :=
  ⟨hn, fitsList_iff.mpr (List.forall_mem_map.mpr fun _ _ => trivial)⟩

theorem Event.fits (e : Event) {n : ℕ} (hn : 2 ≤ n) : (e.toJson : Json F).Fits n := by
  obtain ⟨phase, sc, args, result⟩ := e
  have hargs := fits_strs (F := F) args (n := n - 1) (by omega)
  rcases result with - | - | r
  · exact ⟨by omega, trivial, trivial, hargs, trivial⟩
  · exact ⟨by omega, trivial, trivial, hargs, trivial, trivial⟩
  · exact ⟨by omega, trivial, trivial, hargs, trivial, trivial⟩

/-- A trace fits the scanner's limits if its exit code does. -/
theorem Trace.fits {t : Trace} (hcode : t.exitCode.natAbs < 10 ^ maxStrDigits) {n : ℕ}
    (hn : 4 ≤ n) : (t.toJson : Json F).Fits n := by
  have hfiles : (filesJson t.filesWritten : Json F).Fits (n - 1) :=
    ⟨by omega, fitsDict_iff.mpr (List.forall_mem_map.mpr fun _ _ => trivial)⟩
  have hevents : (Json.arr (t.events.map Event.toJson) : Json F).Fits (n - 1) :=
    ⟨by omega, fitsList_iff.mpr (List.forall_mem_map.mpr fun e _ => e.fits (by omega))⟩
  exact ⟨by omega, fits_strs _ (by omega), trivial, trivial, trivial, hcode, hfiles, hevents, trivial⟩

theorem fits_jobValue (cases : List Input) {n : ℕ} (hn : 4 ≤ n) : (jobValue F cases).Fits n := by
  refine ⟨by omega, fits_strs _ (by omega), ⟨by omega, fitsList_iff.mpr ?_⟩, trivial⟩
  rw [List.forall_mem_map]
  exact fun c _ => ⟨by omega, fits_strs _ (by omega), trivial, trivial⟩

theorem readBack_jobValue (cases : List Input) : (jobValue F cases).joined.dedupe =
    jobValue F (cases.map fun c => (c.1.map joinPairs, joinPairs c.2)) := by
  have hcase : ∀ c : Input, (Json.obj [(py "argv", strs c.1), (py "stdin_hex", .str c.2)] :
      Json F).joined.dedupe = .obj [(py "argv", strs (c.1.map joinPairs)),
        (py "stdin_hex", .str (joinPairs c.2))] := by
    intro c
    rw [readBack_record]
    · simp only [List.map_cons, List.map_nil, readBack_strs]
      rfl
    · show ∀ k ∈ [py "argv", py "stdin_hex"], joinPairs k = k
      decide
    · simp [Dict.keys]
  have hflags : cflags.map joinPairs = cflags := by decide
  rw [jobValue, readBack_record]
  · simp only [List.map_cons, List.map_nil, readBack_strs, readBack_arr, List.map_map,
      Function.comp_def, hcase, hflags, jobValue]
  · show ∀ k ∈ [py "flags", py "cases"], joinPairs k = k
    decide
  · simp [Dict.keys]

/-- What the script reads of the cases that the checker wrote. -/
theorem readJob_jobValue {cases : List Input} {inputs : List (List PyStr × Bytes)}
    (h : cases = inputs.map fun c => (c.1, hex c.2)) :
    readJob (jobValue F cases) = some (cflags, inputs) := by
  have hcases : (cases.map fun c => (Json.obj [(py "argv", strs c.1), (py "stdin_hex", .str c.2)] :
      Json F)).mapM readCaseInput = some inputs := by
    rw [h, List.map_map, mapM_some, List.forall₂_map_left_iff, List.forall₂_same]
    intro c _
    simp [readCaseInput, Json.get?, List.lookup_cons, Json.str?]
  simp [readJob, jobValue, Json.get?, List.lookup_cons, Json.arr?, hcases]

end Joined

section Printed

variable {F : Type} [Runtime F] [LawfulRuntime F]

/-- The lines of a job that printed values. -/
theorem jobLines_printedLines {vs : List (Json F)}
    (hfits : ∀ v ∈ vs, v.Fits (Runtime.maxDepth F)) :
    jobLines F (encode (printedLines F vs)) = some (vs.map fun v => v.joined.dedupe) := by
  have hlines : splitLines (printedLines F vs) = vs.map (dumps plain) := by
    rw [printedLines, ← @splitLines_flatMap (vs.map (dumps plain)), List.flatMap_map]
    intro l hl
    obtain ⟨v, -, rfl⟩ := List.mem_map.mp hl
    exact isLineBreak_dumps v
  rw [jobLines, printedLines, decodeUtf8_ascii .strict (isAscii_printed vs), Option.bind_some,
    ← printedLines, hlines, mapM_some, List.forall₂_map_left_iff, List.forall₂_map_right_iff,
    List.forall₂_same]
  exact fun v hv => loadsText_dumps plain_blank (hfits v hv)

/-! ### The verdict -/

/-- Two traces with the same observable behaviour. -/
structure SameObserved (t u : Trace) : Prop where
  stdout : t.stdout = u.stdout
  stderr : t.stderr = u.stderr
  exitCode : t.exitCode = u.exitCode
  count : t.filesWritten.length = u.filesWritten.length
  files : ∀ f ∈ t.filesWritten, u.filesWritten.lookup f.1 = some f.2
  events : obsEvents t.events = obsEvents u.events

omit [Runtime F] [LawfulRuntime F] in
theorem lookup_strFiles (files : Dict PyStr) (k : PyStr) :
    (files.map fun p => (p.1, (.str p.2 : Json F))).lookup k = (files.lookup k).map .str := by
  induction files with
  | nil => rfl
  | cons e files ih =>
      obtain ⟨l, v⟩ := e
      simp only [List.map_cons, List.lookup_cons]
      cases k == l
      · exact ih
      · rfl

omit [LawfulRuntime F] in
theorem agrees_iff {t u : Trace} : Agrees (F := F) t u.toJson ↔ SameObserved t u := by
  have hfiles : pyEq (F := F) (filesJson t.filesWritten) (filesJson u.filesWritten) = true ↔
      t.filesWritten.length = u.filesWritten.length ∧
        ∀ f ∈ t.filesWritten, u.filesWritten.lookup f.1 = some f.2 := by
    rw [filesJson, filesJson, pyEq, Bool.and_eq_true, beq_iff_eq, List.length_map,
      List.length_map, pyEqDict_iff, List.forall_mem_map]
    apply and_congr_right
    intro _
    apply forall₂_congr
    intro f _
    rw [lookup_strFiles]
    constructor
    · rintro ⟨w, hw, heq⟩
      obtain ⟨v, hv, rfl⟩ := Option.map_eq_some_iff.mp hw
      rw [hv, Json.str.inj (pyEq_str.mp heq)]
    · intro h
      exact ⟨.str f.2, by rw [h]; rfl, pyEq_str.mpr rfl⟩
  rw [agrees_toJson_iff, hfiles]
  constructor
  · rintro ⟨h1, h2, h3, ⟨h4, h5⟩, h6⟩
    exact ⟨h1, h2, h3, h4, h5, h6⟩
  · intro h
    exact ⟨h.stdout, h.stderr, h.exitCode, ⟨h.count, h.files⟩, h.events⟩

/-- The verdict is `PASSED`. -/
def Passes (o : Option (CheckVerdict F)) : Prop := ∃ v, o = some v ∧ v.status = .passed

omit [LawfulRuntime F] in
theorem not_passes_reject {reason stage : PyStr} {kw : Dict (Json F)} :
    ¬ Passes (replayReject reason stage kw) := by
  rintro ⟨v, hv, hstatus⟩
  rw [replayReject_status hv] at hstatus
  cases hstatus

omit [LawfulRuntime F] in
theorem judgeLines_passes_iff {factsLimit : ℕ} {p : Replay} {lines : List (Json F)}
    (hlen : lines.length = p.traces.length) :
    Passes (judgeLines F factsLimit p lines) ↔
      hiddenN ≤ p.hidden.length ∧ List.Forall₂ Agrees p.traces lines := by
  have hpart : ∀ (ts : List Trace) (ls : List (Json F)), ts.length = ls.length →
      (IsOk (compare ts ls) ↔ List.Forall₂ Agrees ts ls) := by
    intro ts ls hl
    rw [isOk_compare_iff, List.forall₂_iff_zip]
    exact ⟨fun h => ⟨hl, fun {a b} hab => h (a, b) hab⟩, fun h q hq => h.2 hq⟩
  have hsum : p.traces.length = p.recorded.length + p.hidden.length := List.length_append
  have hrec : p.recorded.length = (lines.take p.recorded.length).length := by
    rw [List.length_take]
    omega
  have hhid : p.hidden.length = (lines.drop p.recorded.length).length := by
    rw [List.length_drop]
    omega
  -- the lines are cut where the recorded traces end
  have hall : List.Forall₂ Agrees p.traces lines ↔
      List.Forall₂ Agrees p.recorded (lines.take p.recorded.length) ∧
        List.Forall₂ Agrees p.hidden (lines.drop p.recorded.length) := by
    constructor
    · intro h
      have htake := List.forall₂_take p.recorded.length h
      have hdrop := List.forall₂_drop p.recorded.length h
      rw [Replay.traces, List.take_left] at htake
      rw [Replay.traces, List.drop_left] at hdrop
      exact ⟨htake, hdrop⟩
    · rintro ⟨h, h'⟩
      rw [Replay.traces, ← List.take_append_drop p.recorded.length lines]
      exact List.rel_append h h'
  rw [hall, ← hpart _ _ hrec, ← hpart _ _ hhid]
  constructor
  · rintro ⟨v, hv, hstatus⟩
    obtain ⟨h1, h2, h3⟩ := judgeLines_passed hv hstatus
    exact ⟨h2, h1, h3⟩
  · rintro ⟨hfull, ⟨v, hv, hok⟩, w, hw, hok'⟩
    have hjudge : (judgeLines F factsLimit p lines).map (·.status) = some .passed := by
      rw [judgeLines, hv, Option.bind_eq_bind, Option.bind_some, if_neg (by simp [hok]),
        if_neg (by omega), hw, Option.bind_some, if_neg (by simp [hok'])]
      rfl
    exact Option.map_eq_some_iff.mp hjudge

omit [LawfulRuntime F] in
/-- The verdict on what a job printed. -/
theorem judge_printed_iff {factsLimit : ℕ} {p : Replay} {b : Bytes} {lines : List (Json F)}
    (hlines : jobLines F b = some lines) (hreport : compileReport (some lines) = none) :
    Passes (judge F factsLimit p (.printed b)) ↔ b.length ≤ 256 * 1024 ∧
      lines.length = p.traces.length ∧ (∀ l ∈ lines, traceOk l = true) ∧
      Passes (judgeLines F factsLimit p lines) := by
  by_cases hcap : b.length ≤ 256 * 1024
  · rw [judge, JobResult.printed, dif_pos hcap]
    simp only [Bool.false_eq_true, if_false, if_true, hlines, hreport, true_and, hcap,
      List.all_eq_true]
    split_ifs with hok
    · rw [and_iff_right hok.1, and_iff_right hok.2]
    · refine iff_of_false not_passes_reject fun h => hok ⟨h.1, h.2.1⟩
  · rw [judge, JobResult.printed, dif_neg hcap]
    simp only [Bool.false_eq_true, if_false, if_true, hcap, false_and, iff_false]
    exact not_passes_reject

omit [LawfulRuntime F] in
/-- The input of a trace that was recorded, as it is written for the job. -/
theorem Recorded.input {t : Trace} (h : Recorded F t) :
    (t.argv.map joinPairs, joinPairs t.stdinHex) = ((jobInput t).1, hex (jobInput t).2) := by
  obtain ⟨r, rfl⟩ := h
  show (_, joinPairs (hex r.stdin)) = (_, hex ((fromHex (hex r.stdin)).getD []))
  rw [fromHex_hex, joinPairs_of_ascii (printable_hex r.stdin).isAscii]
  rfl

/-- What the script does with the cases of a candidate. -/
theorem replayValues_eq {p : Replay} (hp : GroundTruth F p) (gcc : Gcc) :
    replayValues F gcc ⟨p.source, p.traces.map Trace.input⟩ =
      match gcc cflags (encode p.source) with
      | .error stderr => some [.obj [(py "compile", .str stderr)]]
      | .ok model => some ((replayFrom F model 0 (p.traces.map jobInput)).map Trace.toJson) := by
  have hfits := fits_jobValue (F := F) (p.traces.map Trace.input)
    (le_trans (by decide) (LawfulRuntime.maxDepth_le (F := F)) : 4 ≤ Runtime.maxDepth F)
  have hinputs : ((p.traces.map Trace.input).map fun c => (c.1.map joinPairs, joinPairs c.2)) =
      (p.traces.map jobInput).map fun c => (c.1, hex c.2) := by
    rw [List.map_map, List.map_map]
    exact List.map_congr_left fun t ht => (hp.recorded t ht).input
  rw [replayValues, loads_dumps_joined plain_blank hfits, readBack_jobValue]
  show (readJob _).bind _ = _
  rw [readJob_jobValue hinputs]
  rfl

/-- The exit codes of a compiled model fit a register. -/
def SmallCodes (gcc : Gcc) : Prop :=
  ∀ flags source model, gcc flags source = .ok model →
    ∀ k binary argv stdin code, (model k binary argv stdin).ending = .finished code →
      code.natAbs < 2 ^ 64

omit [LawfulRuntime F] in
theorem exitCode_recordAt {model : Guest} {binary : PyStr} {k : ℕ} {argv : List PyStr}
    {stdin : Bytes} (h : ∀ code, (model k binary argv stdin).ending = .finished code →
      code.natAbs < 2 ^ 64) :
    (recordAt F model binary k argv stdin).exitCode.natAbs < 10 ^ maxStrDigits := by
  have hbig : 2 ^ 64 ≤ 10 ^ maxStrDigits :=
    le_trans (by decide : 2 ^ 64 ≤ 10 ^ 20) (Nat.pow_le_pow_right (by decide) (by decide))
  apply lt_of_lt_of_le _ hbig
  show (Run.exitCode _).natAbs < _
  unfold Run.exitCode
  split
  · split_ifs
    · exact h _ ‹_›
    · decide
  · decide

omit [LawfulRuntime F] in
/-- Every replayed trace is the recording of some run. -/
theorem mem_replayFrom {model : Guest} {k : ℕ} {cs : List (List PyStr × Bytes)} {u : Trace}
    (h : u ∈ replayFrom F model k cs) : ∃ j argv stdin,
      u = recordAt F model (py "/work/model") j argv stdin := by
  induction cs generalizing k with
  | nil => exact absurd h List.not_mem_nil
  | cons c cs ih =>
      obtain ⟨argv, stdin⟩ := c
      rcases List.mem_cons.mp h with rfl | h
      · exact ⟨k, argv, stdin, rfl⟩
      · exact ih h

omit [LawfulRuntime F] in
theorem length_replayFrom (model : Guest) (k : ℕ) (cs : List (List PyStr × Bytes)) :
    (replayFrom F model k cs).length = cs.length := by
  induction cs generalizing k with
  | nil => rfl
  | cons c cs ih => rw [replayFrom, List.length_cons, List.length_cons, ih]

omit [LawfulRuntime F] in
theorem replayJob_eq {gcc : Gcc} {job : ReplayJob} {vs : List (Json F)}
    (h : replayValues F gcc job = some vs) :
    replayJob F gcc job = .printed (encode (printedLines F vs)) := by
  unfold replayJob
  split
  · rename_i hnone
    cases hnone.symm.trans h
  · rename_i ws hws
    rw [Option.some.inj (hws.symm.trans h)]

/-- What the compiler says is no trace. -/
theorem not_passes_compile (factsLimit : ℕ) (p : Replay) (stderr : PyStr) :
    ¬ Passes (judge F factsLimit p
      (.printed (encode (printedLines F [.obj [(py "compile", .str stderr)]])))) := by
  have hread : (Json.obj [(py "compile", .str stderr)] : Json F).joined.dedupe =
      .obj [(py "compile", .str (joinPairs stderr))] := by
    apply readBack_record
    · show ∀ k ∈ [py "compile"], joinPairs k = k
      decide
    · exact List.nodup_singleton _
  have hlines : jobLines F (encode (printedLines F [.obj [(py "compile", .str stderr)]])) =
      some [.obj [(py "compile", .str (joinPairs stderr))]] := by
    rw [jobLines_printedLines, List.map_singleton, hread]
    rw [List.forall_mem_singleton]
    exact ⟨lt_of_lt_of_le (by decide) (LawfulRuntime.maxDepth_le (F := F)), trivial, trivial⟩
  have hreport : compileReport (some [(.obj [(py "compile", .str (joinPairs stderr))] : Json F)]) =
      some (.str (joinPairs stderr)) := by
    simp [compileReport, sameKeys, Dict.keys]
  by_cases hcap : (encode (printedLines F
      [.obj [(py "compile", .str stderr)]])).length ≤ 256 * 1024
  · rw [judge, JobResult.printed, dif_pos hcap]
    simp only [Bool.false_eq_true, if_false, if_true, hlines, hreport]
    exact not_passes_reject
  · rw [judge, JobResult.printed, dif_neg hcap]
    simp only [Bool.false_eq_true, if_false, if_true]
    exact not_passes_reject

/-- The verdict on printed traces. -/
theorem passes_traces_iff (factsLimit : ℕ) {p : Replay} {us : List Trace}
    (hcode : ∀ u ∈ us, u.exitCode.natAbs < 10 ^ maxStrDigits)
    (hhex : ∀ u ∈ us, (fromHex u.joined.stdout).isSome = true ∧
      (fromHex u.joined.stderr).isSome = true) (hlen : us.length = p.traces.length) :
    Passes (judge F factsLimit p (.printed (encode (printedLines F (us.map Trace.toJson))))) ↔
      (printedLines F (us.map Trace.toJson)).length ≤ 256 * 1024 ∧ hiddenN ≤ p.hidden.length ∧
        List.Forall₂ SameObserved p.traces (us.map Trace.joined) := by
  have hlines : jobLines F (encode (printedLines F (us.map Trace.toJson))) =
      some ((us.map Trace.joined).map Trace.toJson) := by
    rw [jobLines_printedLines, List.map_map, List.map_map]
    · simp only [Function.comp_def, Trace.joined_toJson]
    · rw [List.forall_mem_map]
      exact fun u hu => Trace.fits (hcode u hu)
        (le_trans (by decide) (LawfulRuntime.maxDepth_le (F := F)))
  -- a trace has other keys than a report of the compiler
  have hreport : compileReport (some ((us.map Trace.joined).map (Trace.toJson (F := F)))) = none := by
    cases us with
    | nil => rfl
    | cons u us => simp [compileReport, Trace.toJson, sameKeys, Dict.keys]
  have hok : ∀ l ∈ (us.map Trace.joined).map (Trace.toJson (F := F)), traceOk l = true := by
    rw [List.forall_mem_map, List.forall_mem_map]
    exact fun u hu => traceOk_toJson (hhex u hu).1 (hhex u hu).2
  have hbytes : (encode (printedLines F (us.map Trace.toJson))).length =
      (printedLines F (us.map Trace.toJson)).length := by
    rw [printedLines, encode_ascii (isAscii_printed _), List.length_map]
  have hlen' : ((us.map Trace.joined).map (Trace.toJson (F := F))).length = p.traces.length := by
    rw [List.length_map, List.length_map, hlen]
  have hagree : List.Forall₂ (Agrees (F := F)) p.traces ((us.map Trace.joined).map Trace.toJson) ↔
      List.Forall₂ SameObserved p.traces (us.map Trace.joined) := by
    rw [List.forall₂_map_right_iff]
    simp only [agrees_iff]
  rw [judge_printed_iff hlines hreport, hbytes, judgeLines_passes_iff hlen', hagree,
    and_iff_right hlen', and_iff_right hok]

/-- **The verdict on an honest replay.**  A model whose job runs the script and nothing else passes
exactly when it compiles, the hidden suite is full, the printed traces fit the output of a job,
and the traces behave on every recorded and hidden input as the host recorded. -/
theorem honest_replay_iff {ctx : ReplayContext} {p : Replay} (hp : prepare F ctx = .ok p)
    {gcc : Gcc} (hcodes : SmallCodes gcc) (hjob : ctx.runJob = replayJob F gcc) :
    (∃ v, checkReplay F ctx = some v ∧ v.status = .passed) ↔
      ∃ model, gcc cflags (encode p.source) = .ok model ∧
        (printedLines F ((replayFrom F model 0 (p.traces.map jobInput)).map
          Trace.toJson)).length ≤ 256 * 1024 ∧ hiddenN ≤ p.hidden.length ∧
        List.Forall₂ SameObserved p.traces
          ((replayFrom F model 0 (p.traces.map jobInput)).map Trace.joined) := by
  have hcheck : checkReplay F ctx =
      judge F ctx.factsLimit p (replayJob F gcc ⟨p.source, p.traces.map Trace.input⟩) := by
    rw [checkReplay, hp, hjob]
  have hvalues := replayValues_eq (prepare_spec hp) gcc
  rcases hgcc : gcc cflags (encode p.source) with stderr | model
  · -- the only line is the report of the compiler
    simp only [hgcc] at hvalues
    rw [replayJob_eq hvalues] at hcheck
    refine iff_of_false (fun h => ?_) (fun h => ?_)
    · exact not_passes_compile ctx.factsLimit p stderr (hcheck ▸ h)
    · obtain ⟨model, hm, -⟩ := h
      cases hm
  · simp only [hgcc] at hvalues
    rw [replayJob_eq hvalues] at hcheck
    have hus : ∀ u ∈ replayFrom F model 0 (p.traces.map jobInput),
        u.exitCode.natAbs < 10 ^ maxStrDigits ∧ (fromHex u.joined.stdout).isSome = true ∧
          (fromHex u.joined.stderr).isSome = true := by
      intro u hu
      obtain ⟨j, argv, stdin, rfl⟩ := mem_replayFrom hu
      refine ⟨exitCode_recordAt (hcodes _ _ _ hgcc j _ argv stdin), ?_, ?_⟩
      · show (fromHex (joinPairs (hex _))).isSome = true
        rw [joinPairs_of_ascii (printable_hex _).isAscii, fromHex_hex]
        rfl
      · show (fromHex (joinPairs (hex _))).isSome = true
        rw [joinPairs_of_ascii (printable_hex _).isAscii, fromHex_hex]
        rfl
    have hlen : (replayFrom F model 0 (p.traces.map jobInput)).length = p.traces.length := by
      rw [length_replayFrom, List.length_map]
    have hpass := passes_traces_iff (F := F) ctx.factsLimit
      (fun u hu => (hus u hu).1) (fun u hu => (hus u hu).2) hlen
    rw [← hcheck] at hpass
    constructor
    · exact fun h => ⟨model, rfl, hpass.mp h⟩
    · rintro ⟨model', hm, h⟩
      obtain rfl := Except.ok.inj hm
      exact hpass.mpr h

end Printed

/-- A compiler that makes the echoing program of every source. -/
def echoGcc : Gcc := fun _ _ => .ok echoGuest

/-- The candidate with one nominated case, in a job that runs the script. -/
def scriptContext : ReplayContext := { echoContext with runJob := replayJob ZeroFloat echoGcc }

theorem smallCodes_echo : SmallCodes echoGcc := by
  rintro flags source model hm k binary argv stdin code hcode
  obtain rfl := Except.ok.inj hm
  obtain rfl := Ending.finished.inj hcode
  decide

theorem replayFrom_echo (k : ℕ) (cs : List (List PyStr × Bytes)) :
    replayFrom ZeroFloat echoGuest k cs = cs.map fun c => echoTrace (py "model") c.1 c.2 := by
  have hname : pathName (py "/work/model") = py "model" := by decide
  induction cs generalizing k with
  | nil => rfl
  | cons c cs ih => rw [replayFrom, recordAt_echo, ih, hname, List.map_cons]

/-- What happens before the job does not depend on the job. -/
theorem prepare_runJob {F : Type} [Runtime F] (ctx : ReplayContext) (job : ReplayJob → JobResult) :
    prepare F { ctx with runJob := job } = prepare F ctx := by
  unfold prepare
  rfl

/-- A trace of the echoing program behaves the same under every name. -/
theorem sameObserved_echo (name name' : PyStr) (argv : List PyStr) (stdin : Bytes) :
    SameObserved (echoTrace name argv stdin) (echoTrace name' argv stdin).joined := by
  have hout : joinPairs (hex stdin) = hex stdin := joinPairs_of_ascii (printable_hex stdin).isAscii
  have hevents : ([⟨py "enter", py "exit_group", [py "0x0"], none⟩] : List Event).map Event.joined =
      [⟨py "enter", py "exit_group", [py "0x0"], none⟩] := by decide
  exact ⟨hout.symm, rfl, rfl, rfl, fun f hf => absurd hf List.not_mem_nil,
    congrArg obsEvents hevents.symm⟩

theorem honest_replay_echo :
    ∃ v, checkReplay ZeroFloat scriptContext = some v ∧ v.status = .passed := by
  obtain ⟨p, hp, hrec, hhid⟩ := echo_prepared
  have htraces : p.traces = echoInputs.map fun c => echoTrace (py "b") c.1 c.2 := by
    rw [Replay.traces, hrec, hhid, echoInputs, List.map_cons, List.map_map]
    rfl
  have hinputs : p.traces.map jobInput = echoInputs := by
    rw [htraces]
    decide
  have hp' : prepare ZeroFloat scriptContext = .ok p := by
    rw [scriptContext, prepare_runJob, hp]
  have hjob : scriptContext.runJob = replayJob ZeroFloat echoGcc := by
    simp only [scriptContext]
  refine (honest_replay_iff hp' smallCodes_echo hjob).mpr
    ⟨echoGuest, rfl, ?_, by rw [hhid]; rfl, ?_⟩
  · rw [hinputs, replayFrom_echo]
    decide +kernel
  · rw [hinputs, replayFrom_echo, htraces, List.forall₂_map_left_iff, List.map_map,
      List.forall₂_map_right_iff, List.forall₂_same]
    intro c hc
    exact sameObserved_echo (py "b") (py "model") c.1 c.2

end ReSchema
