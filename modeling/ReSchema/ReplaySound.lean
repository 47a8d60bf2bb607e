/-
ReSchema/ReplaySound.lean

What a passed replay proves, whatever the job printed.

The job's output is the model's own claim about itself.  A model passes only
if the output is one line for each recorded case and each hidden one, and every
line has what the host recorded in its place (`passed_sound`).  The hidden
inputs are then `HIDDEN_N` many, distinct, and none of them was nominated.
-/
import ReSchema.ProgramReplay
import ReSchema.Py.Interpreter
import ReSchema.Py.Sizes

namespace ReSchema

open Py

variable {F : Type} [Runtime F]

/-! ### The ground truth -/

/-- The input that a nominated case stands for, with its bytes spelt in lower case. -/
def nominatedInput (c : Input) : Input := (c.1, hex ((fromHex c.2).getD []))

/-- What `prepare` establishes. -/
structure GroundTruth (F : Type) [Runtime F] (p : Replay) : Prop where
  cases_le : p.cases.length ≤ maxCases
  inputs : p.recorded.map Trace.input = p.cases.map nominatedInput
  recorded : ∀ t ∈ p.traces, Recorded F t
  hidden_le : p.hidden.length ≤ hiddenN
  hidden_nodup : (p.hidden.map Trace.input).Nodup
  hidden_fresh : ∀ t ∈ p.hidden, t.input ∉ p.recorded.map Trace.input

theorem recordCases_spec {guest : Guest} {binary : PyStr} {k : ℕ} {cs : List Input}
    {ts : List Trace} (h : recordCases F guest binary k cs = .ok ts) :
    ts.map Trace.input = cs.map nominatedInput ∧ ∀ t ∈ ts, Recorded F t := by
  induction cs generalizing k ts with
  | nil =>
      cases h
      simp
  | cons c cs ih =>
      obtain ⟨argv, stdinHex⟩ := c
      rw [recordCases.eq_def] at h
      dsimp only at h
      rcases ht : recordStable F guest binary k argv ((fromHex stdinHex).getD []) with - | t
      · simp [ht] at h
      · rcases hts : recordCases F guest binary (k + 2) cs with e | us
        · simp [ht, hts] at h
        · obtain ⟨hr, hinput⟩ := recordStable_spec ht
          obtain ⟨hmap, hall⟩ := ih hts
          obtain rfl : t :: us = ts := by simpa [ht, hts] using h
          exact ⟨by simp [hmap, hinput, nominatedInput],
            List.forall_mem_cons.mpr ⟨hr, hall⟩⟩

theorem length_sights_le {α : Type} [DecidableEq α] (T as : List α) :
    (sights T as).length ≤ T.length + as.length := by
  induction as generalizing T with
  | nil => exact le_refl _
  | cons a as ih =>
      have hstep : (sight T a).length ≤ T.length + 1 := by
        unfold sight
        split_ifs <;> simp
      have := ih (sight T a)
      rw [List.length_cons]
      rw [sights] at this ⊢
      rw [List.foldl_cons]
      omega

theorem parseCases_length {raw : Bytes} {cs : List Input} (h : parseCases F raw = .ok cs) :
    cs.length ≤ maxCases := by
  unfold parseCases at h
  split at h
  · exact absurd h (by rintro ⟨⟩)
  · split_ifs at h with hlen
    rename_i xs _
    rcases hm : xs.mapM (parseCase (F := F)) with e | ys
    · rw [hm] at h
      exact absurd h (by rintro ⟨⟩)
    · rw [hm] at h
      cases h
      have := length_sights_le [] ys
      rw [← (mapM_ok.mp hm).length_eq] at this
      simpa using this.trans (by simpa using hlen)
  · exact absurd h (by rintro ⟨⟩)

/-- A candidate that reaches the job has a readable source and readable cases. -/
theorem prepare_cases {ctx : ReplayContext} {p : Replay} (h : prepare F ctx = .ok p) :
    ∃ raw, parseCases F raw = .ok p.cases ∧
      recordCases F ctx.guest ctx.binary 0 p.cases = .ok p.recorded ∧
      p.hidden = hiddenSuite F ctx.guest ctx.binary ctx.draws (2 * p.cases.length) p.recorded := by
  rw [prepare] at h
  rcases hfiles : candidateFiles F ctx.candidate with why | files
  · simp [hfiles] at h
  rcases hmodel : files.lookup (py "model.c") with - | model
  · simp [hfiles, hmodel] at h
  rcases hsource : decodeUtf8 .strict model with - | source
  · simp [hfiles, hmodel, hsource] at h
  by_cases hparams : py "params.json" ∈ files.keys
  · simp [hfiles, hmodel, hsource, hparams] at h
  rcases hcases : parseCases F ((files.lookup (py "cases.json")).getD (encode (py "[]")))
    with why | cases
  · simp [hfiles, hmodel, hsource, hparams, hcases] at h
  rcases hrec : recordCases F ctx.guest ctx.binary 0 cases with argv | recorded
  · simp [hfiles, hmodel, hsource, hparams, hcases, hrec] at h
  simp only [hfiles, hmodel, hsource, hparams, hcases, hrec, if_false, Except.ok.injEq] at h
  subst h
  exact ⟨_, hcases, hrec, rfl⟩

/-- **The ground truth** of a candidate that reaches the job. -/
theorem prepare_spec {ctx : ReplayContext} {p : Replay} (h : prepare F ctx = .ok p) :
    GroundTruth F p := by
  obtain ⟨raw, hcases, hrec, hhidden⟩ := prepare_cases h
  obtain ⟨hinputs, hall⟩ := recordCases_spec hrec
  obtain ⟨known, hsuite⟩ := @hiddenSuite_suite F _ ctx.guest ctx.binary
    ctx.draws (2 * p.cases.length) p.recorded
  rw [← hhidden] at hsuite
  refine ⟨parseCases_length hcases, hinputs, ?_, hsuite.length_le, hsuite.nodup, hsuite.disjoint⟩
  intro t ht
  exact (List.mem_append.mp ht).elim (hall t) (hsuite.recorded t)

/-! ### Passing -/

/-- The line reports what the host recorded. -/
structure Reproduces (tr : Trace) (line : Json F) : Prop where
  stdout : line.get? (py "stdout") = some (.str tr.stdout)
  stderr : line.get? (py "stderr") = some (.str tr.stderr)
  exitCode : line.get? (py "exit_code") = some (.int tr.exitCode)
  files : ∃ d, line.get? (py "files_written") = some (.obj d) ∧
    d.length = tr.filesWritten.length ∧
    ∀ f ∈ tr.filesWritten, d.lookup f.1 = some (.str f.2)
  events : ∃ evs ge, line.get? (py "events") = some (.arr evs) ∧ obsEventsJson evs = some ge ∧
    List.Forall₂ (fun e a => pyEq e.toJson a = true) (obsEvents tr.events) ge

omit [Runtime F] in
theorem traceOk_exitCode {line : Json F} (h : traceOk line = true) :
    ∃ i, line.get? (py "exit_code") = some (.int i) := by
  simp only [traceOk, Bool.and_eq_true, Option.isSome_iff_exists, Option.bind_eq_some_iff] at h
  obtain ⟨⟨⟨-, i, c, hc, hi⟩, -⟩, -⟩ := h
  exact ⟨i, hc.trans (congrArg some (Json.int?_eq_some.mp hi))⟩

theorem Agrees.reproduces {tr : Trace} {line : Json F} (h : Agrees tr line)
    (hok : traceOk line = true) : Reproduces tr line := by
  refine ⟨h.stdout, h.stderr, ?_, ?_, h.events⟩
  · obtain ⟨i, hi⟩ := traceOk_exitCode hok
    obtain ⟨c, hc, heq⟩ := h.exitCode
    obtain rfl : c = .int i := Option.some.inj (hc.symm.trans hi)
    have hval : tr.exitCode = i := by simpa [pyEq] using heq
    rw [hval, hi]
  · obtain ⟨f, hf, heq⟩ := h.files
    cases f with
    | obj d =>
        simp only [filesJson, pyEq, Bool.and_eq_true, beq_iff_eq, List.length_map] at heq
        refine ⟨d, hf, heq.1.symm, fun e he => ?_⟩
        obtain ⟨w, hw, hval⟩ := pyEqDict_iff.mp heq.2 (e.1, .str e.2) (List.mem_map_of_mem he)
        rw [hw, pyEq_str.mp hval]
    | _ => simp [filesJson, pyEq] at heq

theorem replayReject_status {reason stage : PyStr} {kw : Dict (Json F)} {v : CheckVerdict F}
    (h : replayReject reason stage kw = some v) : v.status = .rejected := by
  obtain ⟨fb, -, rfl⟩ := Option.map_eq_some_iff.mp h
  rfl

theorem judgeLines_passed {factsLimit : ℕ} {p : Replay} {lines : List (Json F)}
    {v : CheckVerdict F} (h : judgeLines F factsLimit p lines = some v) (hv : v.status = .passed) :
    IsOk (compare p.recorded (lines.take p.recorded.length)) ∧ hiddenN ≤ p.hidden.length ∧
      IsOk (compare p.hidden (lines.drop p.recorded.length)) := by
  have never : ∀ {reason stage : PyStr} {kw : Dict (Json F)},
      replayReject reason stage kw ≠ some v := fun hrej => by
    rw [replayReject_status hrej] at hv
    exact absurd hv (by decide)
  rw [judgeLines] at h
  obtain ⟨a, ha, h⟩ := Option.bind_eq_some_iff.mp h
  split_ifs at h with hok hlen
  · exact absurd h never
  · exact absurd h never
  · obtain ⟨b, hb, h⟩ := Option.bind_eq_some_iff.mp h
    split_ifs at h with hok'
    · exact absurd h never
    · exact ⟨⟨a, ha, by simpa using hok⟩, by omega, ⟨b, hb, by simpa using hok'⟩⟩

theorem judge_passed {factsLimit : ℕ} {p : Replay} {r : JobResult} {v : CheckVerdict F}
    (h : judge F factsLimit p r = some v) (hv : v.status = .passed) :
    ∃ lines, jobLines F r.stdout = some lines ∧ lines.length = p.traces.length ∧
      (∀ line ∈ lines, traceOk line = true) ∧ judgeLines F factsLimit p lines = some v := by
  -- no rejection is a pass
  have never : ∀ {reason stage : PyStr} {kw : Dict (Json F)},
      replayReject reason stage kw ≠ some v := fun hrej => by
    rw [replayReject_status hrej] at hv
    exact absurd hv (by decide)
  rw [judge] at h
  by_cases htimeout : r.timedOut = true
  · rw [if_pos htimeout] at h
    exact absurd h never
  rw [if_neg htimeout] at h
  by_cases htrunc : r.truncated = true
  · rw [if_pos htrunc] at h
    exact absurd h never
  rw [if_neg htrunc] at h
  rcases hreport : (if r.returncode = 0 then compileReport (jobLines F r.stdout) else none)
    with - | report
  · rcases hlines : jobLines F r.stdout with - | lines
    · simp only [hlines] at hreport h
      simp only [hreport] at h
      exact absurd h never
    · simp only [hlines] at hreport h
      simp only [hreport] at h
      split_ifs at h with hok
      · exact ⟨lines, rfl, hok.2.1, by simpa using hok.2.2, h⟩
      · exact absurd h never
  · simp only [hreport] at h
    exact absurd h never

/-- Nothing passes before the job. -/
theorem prepare_rejects {ctx : ReplayContext} {v : CheckVerdict F}
    (h : prepare F ctx = .error (some v)) : v.status = .rejected := by
  have hrej : ∀ {reason stage : PyStr} {kw : Dict (Json F)},
      (Except.error (replayReject reason stage kw) : Except _ Replay) = .error (some v) →
        v.status = .rejected := fun he => replayReject_status (Except.error.inj he)
  rw [prepare] at h
  rcases hfiles : candidateFiles F ctx.candidate with why | files
  · exact hrej (by simpa only [hfiles] using h)
  rcases hmodel : files.lookup (py "model.c") with - | model
  · exact hrej (by simpa only [hfiles, hmodel] using h)
  rcases hsource : decodeUtf8 .strict model with - | source
  · exact hrej (by simpa only [hfiles, hmodel, hsource] using h)
  by_cases hparams : py "params.json" ∈ files.keys
  · exact hrej (by simpa only [hfiles, hmodel, hsource, hparams, if_true] using h)
  rcases hcases : parseCases F ((files.lookup (py "cases.json")).getD (encode (py "[]")))
    with why | cases
  · exact hrej (by simpa only [hfiles, hmodel, hsource, hparams, hcases, if_false] using h)
  rcases hrec : recordCases F ctx.guest ctx.binary 0 cases with argv | recorded
  · exact hrej (by simpa only [hfiles, hmodel, hsource, hparams, hcases, hrec, if_false] using h)
  simp [hfiles, hmodel, hsource, hparams, hcases, hrec] at h

/-- **Soundness against a forged replay.**  Whatever the job returned, a passed model has one
line for each nominated and each hidden case, and each line reproduces what the host recorded;
the hidden inputs are `HIDDEN_N` many, distinct, and not nominated. -/
theorem passed_sound {ctx : ReplayContext} {v : CheckVerdict F}
    (h : checkReplay F ctx = some v) (hv : v.status = .passed) :
    ∃ p lines, prepare F ctx = .ok p ∧
      jobLines F (ctx.runJob ⟨p.source, p.traces.map Trace.input⟩).stdout = some lines ∧
      lines.length = p.recorded.length + hiddenN ∧
      List.Forall₂ Reproduces p.traces lines ∧
      p.hidden.length = hiddenN ∧
      p.recorded.map Trace.input = p.cases.map nominatedInput ∧
      (p.hidden.map Trace.input).Nodup ∧
      ∀ t ∈ p.hidden, t.input ∉ p.cases.map nominatedInput := by
  rw [checkReplay] at h
  rcases hp : prepare F ctx with e | p
  · rw [hp] at h
    subst h
    rw [prepare_rejects hp] at hv
    exact absurd hv (by decide)
  · rw [hp] at h
    have hg := prepare_spec hp
    obtain ⟨lines, hlines, hlen, hok, hjudge⟩ := judge_passed h hv
    obtain ⟨hrec, hfull, hhid⟩ := judgeLines_passed hjudge hv
    have hhidden : p.hidden.length = hiddenN := le_antisymm hg.hidden_le hfull
    have hlen' : lines.length = p.recorded.length + hiddenN := by
      rw [hlen, Replay.traces, List.length_append, hhidden]
    refine ⟨p, lines, rfl, hlines, hlen', ?_, hhidden, hg.inputs, hg.hidden_nodup, ?_⟩
    · -- both parts are compared line by line, and a line that agrees reproduces its trace
      have hpair : ∀ (ts : List Trace) (ls : List (Json F)), ts.length = ls.length →
          IsOk (compare ts ls) → (∀ l ∈ ls, traceOk l = true) → List.Forall₂ Reproduces ts ls := by
        intro ts ls hl hc hall
        rw [List.forall₂_iff_zip]
        exact ⟨hl, fun hmem => (isOk_compare_iff.mp hc _ hmem).reproduces
          (hall _ (List.of_mem_zip hmem).2)⟩
      have hsplit : lines = lines.take p.recorded.length ++ lines.drop p.recorded.length :=
        (List.take_append_drop _ _).symm
      rw [Replay.traces, hsplit]
      refine List.rel_append ?_ ?_
      · exact hpair _ _ (by rw [List.length_take]; omega) hrec fun l hl => hok l (List.mem_of_mem_take hl)
      · exact hpair _ _ (by rw [List.length_drop]; omega) hhid fun l hl => hok l (List.mem_of_mem_drop hl)
    · intro t ht
      rw [← hg.inputs]
      exact hg.hidden_fresh t ht

/-! ### An honest job -/

/-- A job that printed something, if it fits. -/
def JobResult.printed (b : Bytes) : JobResult :=
  if h : b.length ≤ 256 * 1024 then ⟨0, false, false, b, [], h, nil_stderr_lt, zero_returncode_lt⟩
  else ⟨0, false, true, [], [], nil_stdout_le, nil_stderr_lt, zero_returncode_lt⟩

theorem isAscii_printed [LawfulRuntime F] (vs : List (Json F)) :
    IsAscii (vs.flatMap fun v => dumps plain v ++ [ch '\n']) := by
  intro c hc
  obtain ⟨v, -, hv⟩ := List.mem_flatMap.mp hc
  rcases List.mem_append.mp hv with hv | hv
  · exact isAscii_render plain_blank v 0 c hv
  · rw [List.mem_singleton.mp hv]
    decide

/-- Printed values are the lines of the job. -/
theorem jobLines_printed [LawfulRuntime F] {vs : List (Json F)}
    (hfits : ∀ v ∈ vs, v.Fits (Runtime.maxDepth F)) (hclean : ∀ v ∈ vs, v.Clean) :
    jobLines F (encode (vs.flatMap fun v => dumps plain v ++ [ch '\n'])) = some vs := by
  have hlines : splitLines (vs.flatMap fun v => dumps plain v ++ [ch '\n']) =
      vs.map (dumps plain) := by
    rw [← @splitLines_flatMap (vs.map (dumps plain)), List.flatMap_map]
    intro l hl
    obtain ⟨v, -, rfl⟩ := List.mem_map.mp hl
    exact isLineBreak_dumps v
  have hload : ∀ us : List (Json F), (∀ v ∈ us, v ∈ vs) →
      (us.map (dumps plain)).mapM loadsText = some us := by
    intro us hus
    induction us with
    | nil => rfl
    | cons u us ih =>
        obtain ⟨hu, hus⟩ := List.forall_mem_cons.mp hus
        rw [List.map_cons, List.mapM_cons, loadsText_dumps plain_blank (hfits u hu),
          (hclean u hu).joined_eq, (hclean u hu).dedupe_eq, ih hus]
        rfl
  rw [jobLines, decodeUtf8_ascii .strict (isAscii_printed vs), Option.bind_some, hlines]
  exact hload vs fun _ h => h

omit [Runtime F] in
/-- A recorded trace has the shape that the checker wants. -/
theorem traceOk_toJson {t : Trace} (hout : (fromHex t.stdout).isSome = true)
    (herr : (fromHex t.stderr).isSome = true) : traceOk (F := F) t.toJson = true := by
  have hevent : ∀ e : Event, eventOk (F := F) e.toJson = true := fun e => by
    simp [eventOk, Event.toJson, Json.get?, List.lookup_cons, Json.str?]
  have hfiles : (filesJson t.filesWritten : Json F).obj?.any
      (fun d => d.all fun e => e.2.str?.isSome) = true := by
    simp [filesJson, Json.obj?, Json.str?]
  simp [traceOk, isHexJson, hout, herr, hfiles, hevent, Json.int?, Json.arr?]

/-- The job reports a trace for each recorded one, and they agree. -/
structure FaithfulReplay (F : Type) [Runtime F] (p : Replay) (us : List Trace) : Prop where
  fits : ∀ u ∈ us, (u.toJson : Json F).Fits (Runtime.maxDepth F)
  clean : ∀ u ∈ us, (u.toJson : Json F).Clean
  stdout : ∀ u ∈ us, (fromHex u.stdout).isSome = true
  stderr : ∀ u ∈ us, (fromHex u.stderr).isSome = true
  agrees : List.Forall₂ (fun t u => Agrees (F := F) t u.toJson) p.traces us

theorem judgeLines_faithful {p : Replay} {us : List Trace} (h : FaithfulReplay F p us)
    (hfull : hiddenN ≤ p.hidden.length) (factsLimit : ℕ) :
    (judgeLines F factsLimit p (us.map Trace.toJson)).map (·.status) = some .passed := by
  obtain ⟨hlen, hzip⟩ := List.forall₂_iff_zip.mp h.agrees
  have hpart : ∀ (ts : List Trace) (vs : List (Json F)),
      (∀ q ∈ ts.zip vs, q ∈ p.traces.zip (us.map Trace.toJson)) → IsOk (compare ts vs) := by
    intro ts vs hsub
    refine isOk_compare_iff.mpr fun q hq => ?_
    have hq := hsub q hq
    rw [List.zip_map_right] at hq
    obtain ⟨⟨t, u⟩, htu, rfl⟩ := List.mem_map.mp hq
    exact hzip htu
  have hsplit : p.traces.zip (us.map Trace.toJson : List (Json F)) =
      p.recorded.zip ((us.map Trace.toJson).take p.recorded.length) ++
        p.hidden.zip ((us.map Trace.toJson).drop p.recorded.length) := by
    conv_lhs => rw [Replay.traces, ← List.take_append_drop p.recorded.length (us.map Trace.toJson)]
    refine List.zip_append ?_
    have := congrArg List.length (show p.traces = p.recorded ++ p.hidden from rfl)
    rw [List.length_append] at this
    rw [List.length_take, List.length_map]
    omega
  obtain ⟨v, hv, hok⟩ := hpart p.recorded _ fun q hq => hsplit ▸ List.mem_append_left _ hq
  obtain ⟨w, hw, hok'⟩ := hpart p.hidden _ fun q hq => hsplit ▸ List.mem_append_right _ hq
  rw [judgeLines, hv, Option.bind_eq_bind, Option.bind_some, if_neg (by simp [hok]),
    if_neg (by omega), hw, Option.bind_some, if_neg (by simp [hok'])]
  rfl

/-- **An honest replay passes**, if its output fits and the hidden suite is full. -/
theorem judge_faithful [LawfulRuntime F] {p : Replay} {us : List Trace} (h : FaithfulReplay F p us)
    (hfull : hiddenN ≤ p.hidden.length) (factsLimit : ℕ)
    (hcap : ((us.map Trace.toJson).flatMap fun v : Json F =>
      dumps plain v ++ [ch '\n']).length ≤ 256 * 1024) :
    (judge F factsLimit p (.printed (encode ((us.map Trace.toJson).flatMap fun v : Json F =>
      dumps plain v ++ [ch '\n'])))).map (·.status) = some .passed := by
  have hbytes : (encode ((us.map Trace.toJson).flatMap fun v : Json F =>
      dumps plain v ++ [ch '\n'])).length ≤ 256 * 1024 := by
    rwa [encode_ascii (isAscii_printed _), List.length_map]
  have hlines := @jobLines_printed F _ _ (us.map Trace.toJson)
    (List.forall_mem_map.mpr h.fits) (List.forall_mem_map.mpr h.clean)
  have hok : (us.map (Trace.toJson (F := F))).length = p.traces.length ∧
      (us.map (Trace.toJson (F := F))).all traceOk = true := by
    refine ⟨by rw [List.length_map, h.agrees.length_eq], List.all_eq_true.mpr ?_⟩
    exact List.forall_mem_map.mpr fun u hu => traceOk_toJson (h.stdout u hu) (h.stderr u hu)
  have hreport : compileReport (some (us.map (Trace.toJson (F := F)))) = none := by
    cases us with
    | nil => rfl
    | cons u us => simp [compileReport, Trace.toJson, sameKeys, Dict.keys]
  rw [judge, JobResult.printed, dif_pos hbytes]
  simp only [Bool.false_eq_true, if_false, if_true, hlines, hreport, hok, and_self]
  exact judgeLines_faithful h hfull factsLimit

/-- A program that copies its input and exits. -/
def echoGuest : Guest := fun _ _ _ stdin =>
  { out := stdin, err := [], hooks := [⟨.exitGroup, .enter, [some 0]⟩], ending := .finished 0,
    files := [], nodup_files := List.nodup_nil }

/-- The job of a model that behaves as the program does. -/
def echoJob (job : ReplayJob) : JobResult :=
  .printed (encode (job.cases.flatMap fun c =>
    dumps plain (recordAt ZeroFloat echoGuest (py "/work/model") 0 c.1
      ((fromHex c.2).getD [])).toJson (F := ZeroFloat) ++ [ch '\n']))

/-- A candidate with one nominated case. -/
def echoContext : ReplayContext where
  candidate := [(py "model.c", []),
    (py "cases.json", encode (py "[\x7b\"argv\": [], \"stdin_hex\": \"61\"\x7d]"))]
  guest := echoGuest
  binary := py "/b"
  draws i := ([natText i], [])
  runJob := echoJob
  factsLimit := 1024

/-- The canonical trace of a run of the program. -/
def echoTrace (name : PyStr) (argv : List PyStr) (stdin : Bytes) : Trace where
  argv0 := name
  argv := argv
  stdinHex := hex stdin
  stdout := hex stdin
  stderr := []
  exitCode := 0
  filesWritten := []
  events := [⟨py "enter", py "exit_group", [py "0x0"], none⟩]

theorem recordAt_echo (binary : PyStr) (k : ℕ) (argv : List PyStr) (stdin : Bytes) :
    recordAt F echoGuest binary k argv stdin = echoTrace (pathName binary) argv stdin := by
  have hargs : canonArgs F [] [] [py "0x0"] = ([], [], [py "0x0"]) := rfl
  rfl

omit [Runtime F] in
theorem echoTrace_fits {n : ℕ} (hn : 4 ≤ n) (name : PyStr) (argv : List PyStr) (stdin : Bytes) :
    ((echoTrace name argv stdin).toJson : Json F).Fits n := by
  have hstrs : ∀ ss : List PyStr, (strs ss : Json F).Fits (n - 1) := fun ss =>
    ⟨by omega, fitsList_iff.mpr (List.forall_mem_map.mpr fun _ _ => trivial)⟩
  have hzero : (0 : ℤ).natAbs < 10 ^ maxStrDigits := Nat.pow_pos (by decide)
  exact ⟨by omega, hstrs _, trivial, trivial, trivial, hzero, ⟨by omega, trivial⟩,
    ⟨by omega, ⟨by omega, trivial, trivial, ⟨by omega, trivial, trivial⟩, trivial⟩, trivial⟩, trivial⟩

omit [Runtime F] in
theorem echoTrace_clean {name : PyStr} {argv : List PyStr} (hname : IsAscii name)
    (hargv : ∀ a ∈ argv, IsAscii a) (stdin : Bytes) :
    ((echoTrace name argv stdin).toJson : Json F).Clean := by
  have hstrs : ∀ ss : List PyStr, (∀ s ∈ ss, IsAscii s) → (strs ss : Json F).Clean := fun ss h =>
    cleanList_iff.mpr (List.forall_mem_map.mpr fun s hs => joinPairs_of_ascii (h s hs))
  have hpy : ∀ s : String, (s.toList.all fun c => 0x20 ≤ c.toNat && c.toNat < 0x7f) = true →
      IsAscii (py s) := fun s hs => (printable_py hs).isAscii
  have hkey : ∀ s : String, (s.toList.all fun c => 0x20 ≤ c.toNat && c.toNat < 0x7f) = true →
      joinPairs (py s) = py s := fun s hs => joinPairs_of_ascii (hpy s hs)
  have hhex : joinPairs (hex stdin) = hex stdin := joinPairs_of_ascii (printable_hex stdin).isAscii
  have hevent : (Event.toJson ⟨py "enter", py "exit_group", [py "0x0"], none⟩ : Json F).Clean :=
    ⟨by simp [Dict.keys], ⟨hkey _ (by decide), hkey _ (by decide)⟩,
      ⟨hkey _ (by decide), hkey _ (by decide)⟩,
      ⟨hkey _ (by decide), hstrs _ (by simpa using hpy "0x0" (by decide))⟩, trivial⟩
  exact ⟨by simp [Dict.keys],
    ⟨hkey _ (by decide), hstrs _ (List.forall_mem_cons.mpr ⟨hname, hargv⟩)⟩,
    ⟨hkey _ (by decide), hhex⟩, ⟨hkey _ (by decide), hhex⟩, ⟨hkey _ (by decide), rfl⟩,
    ⟨hkey _ (by decide), trivial⟩, ⟨hkey _ (by decide), List.nodup_nil, trivial⟩,
    ⟨hkey _ (by decide), hevent, trivial⟩, trivial⟩

/-- The recorded and the hidden inputs of the candidate. -/
def echoInputs : List (List PyStr × Bytes) :=
  ([], [0x61]) :: (List.range 8).map fun i => ([natText i], [])

theorem echo_prepared : ∃ p, prepare ZeroFloat echoContext = .ok p ∧
    p.recorded = [echoTrace (py "b") [] [0x61]] ∧
    p.hidden = (List.range 8).map fun i => echoTrace (py "b") [natText i] [] := by
  have h : (prepare ZeroFloat echoContext).toOption.map (fun p => (p.recorded, p.hidden)) =
      some ([echoTrace (py "b") [] [0x61]],
        (List.range 8).map fun i => echoTrace (py "b") [natText i] []) := by
    decide +kernel
  obtain ⟨p, hp, hval⟩ := Option.map_eq_some_iff.mp h
  rcases hprep : prepare ZeroFloat echoContext with e | q
  · rw [hprep] at hp
    cases hp
  · rw [hprep] at hp
    obtain rfl := Option.some.inj hp
    exact ⟨q, rfl, Prod.mk.inj hval⟩

theorem echoJob_eq (source : PyStr) (cs : List (List PyStr × Bytes)) :
    echoJob ⟨source, cs.map fun c => (c.1, hex c.2)⟩ =
      .printed (encode (((cs.map fun c => echoTrace (py "model") c.1 c.2).map
        Trace.toJson).flatMap fun v : Json ZeroFloat => dumps plain v ++ [ch '\n'])) := by
  have hname : pathName (py "/work/model") = py "model" := by decide
  simp only [echoJob, recordAt_echo, hname, List.flatMap_map, fromHex_hex, Option.getD_some]

theorem echo_passed :
    (checkReplay ZeroFloat echoContext).map (·.status) = some .passed := by
  obtain ⟨p, hp, hrec, hhid⟩ := echo_prepared
  have htraces : p.traces = echoInputs.map fun c => echoTrace (py "b") c.1 c.2 := by
    rw [Replay.traces, hrec, hhid, echoInputs, List.map_cons, List.map_map]
    rfl
  have hjob : echoContext.runJob ⟨p.source, p.traces.map Trace.input⟩ = _ :=
    (congrArg echoJob (congrArg (ReplayJob.mk p.source)
      (by rw [htraces, List.map_map]; rfl))).trans (echoJob_eq p.source echoInputs)
  have hfaithful : FaithfulReplay ZeroFloat p
      (echoInputs.map fun c => echoTrace (py "model") c.1 c.2) := by
    have hhex : ∀ b : Bytes, (fromHex (hex b)).isSome = true := fun b => by rw [fromHex_hex]; rfl
    have hargv : ∀ c ∈ echoInputs, ∀ a ∈ c.1, IsAscii a := by
      simp only [echoInputs, List.forall_mem_cons, List.forall_mem_map, List.mem_singleton,
        forall_eq]
      exact ⟨by simp, fun i _ => (printable_natText i).isAscii⟩
    have hname : IsAscii (py "model") := (printable_py (by decide)).isAscii
    constructor
    · exact List.forall_mem_map.mpr fun c _ => echoTrace_fits (by decide) _ c.1 c.2
    · exact List.forall_mem_map.mpr fun c hc => echoTrace_clean hname (hargv c hc) c.2
    · exact List.forall_mem_map.mpr fun c _ => hhex c.2
    · exact List.forall_mem_map.mpr fun _ _ => rfl
    · rw [htraces, List.forall₂_map_left_iff, List.forall₂_map_right_iff, List.forall₂_same]
      exact fun c _ => agrees_toJson_iff.mpr ⟨rfl, rfl, rfl, rfl, rfl⟩
  rw [checkReplay, hp]
  show (judge ZeroFloat echoContext.factsLimit p (echoContext.runJob _)).map _ = _
  rw [hjob]
  refine judge_faithful hfaithful (by rw [hhid]; rfl) _ ?_
  decide +kernel

/-- An honest job passes. -/
theorem passed_sound_echo : ∃ v, checkReplay ZeroFloat echoContext = some v ∧
    ∃ p lines, prepare ZeroFloat echoContext = .ok p ∧
      jobLines ZeroFloat (echoContext.runJob ⟨p.source, p.traces.map Trace.input⟩).stdout =
        some lines ∧
      lines.length = p.recorded.length + hiddenN ∧
      List.Forall₂ Reproduces p.traces lines := by
  obtain ⟨v, hv, hstatus⟩ := Option.map_eq_some_iff.mp echo_passed
  obtain ⟨p, lines, hp, hlines, hlen, hall, -⟩ := passed_sound hv hstatus
  exact ⟨v, hv, p, lines, hp, hlines, hlen, hall⟩

end ReSchema
