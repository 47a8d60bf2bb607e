/-
ReSchema/ProgramReplay.lean

The program checker (`checks/program_replay.py`).

`prepare` is what happens on the host before the job: the candidate is read,
its nominated cases are parsed and recorded, and the hidden suite is drawn.
`judge` is what happens to the output of the job, which is the model's own
claim.  A verdict is an `Option`, with `none` for an exception that escapes the
checker: `_capped` asserts that some level of shrinking fits the limit of the
feedback.

`FACTS_LIMIT` is not part of the repository and stands in the context.  The
recursion of `_cap` and of the indenting encoder is not bounded here.
-/
import ReSchema.Candidate
import ReSchema.HiddenSuite

namespace ReSchema

open Py

/-! ### Feedback -/

/-- `FEEDBACK_LIMIT`. -/
def feedbackLimit : ℕ := 64 * 1024

section Cap

variable {F : Type} [Runtime F]

/-- A text cut to `n` code points, with what is missing counted. -/
def capText (n : ℕ) (s : PyStr) : PyStr :=
  if s.length ≤ n then s
  else s.take n ++ py "...[+" ++ natText (s.length - n) ++ py " chars]"

mutual
/-- `_cap(v, n)`. -/
def cap (n : ℕ) : Json F → Json F
  | .str s => .str (capText n s)
  | .arr xs =>
      .arr ((capList n xs).take 16 ++
        if 16 < xs.length then [.str (py "...[+" ++ natText (xs.length - 16) ++ py "]")] else [])
  | .obj d =>
      let out : Dict (Json F) := Dict.update [] ((capDict n d).take 16)
      .obj (if 16 < d.length then
        Dict.set out (py "...") (.str (py "+" ++ natText (d.length - 16) ++ py " entries"))
        else out)
  | v => v
def capList (n : ℕ) : List (Json F) → List (Json F)
  | [] => []
  | x :: xs => cap n x :: capList n xs
def capDict (n : ℕ) : List (PyStr × Json F) → List (PyStr × Json F)
  | [] => []
  | (k, v) :: d => (k.take n, cap n v) :: capDict n d
end

/-- The levels of shrinking. -/
def capLevels : List ℕ := [4096, 1024, 256, 64]

/-- Whether a feedback fits the limit. -/
def Fitting (v : Json F) : Prop := (dumpsSorted indent2 v).length < feedbackLimit - 1024

instance (v : Json F) : Decidable (Fitting v) := inferInstanceAs (Decidable (_ < _))

/-- `_capped(feedback)`, with `none` for its assertion. -/
def capped (feedback : Json F) : Option (Json F) :=
  capLevels.findSome? fun n => if Fitting (cap n feedback) then some (cap n feedback) else none

end Cap

/-! ### Verdicts -/

/-- `VerdictStatus`. -/
inductive VerdictStatus
  | passed
  | rejected
  deriving DecidableEq

/-- The verdict of a checker. -/
structure CheckVerdict (F : Type) where
  status : VerdictStatus
  feedback : Json F
  facts : List (Json F)

/-- `_reject(reason, stage, **kw)`. -/
def replayReject {F : Type} [Runtime F] (reason stage : PyStr) (kw : Dict (Json F)) :
    Option (CheckVerdict F) :=
  (capped (.obj ([(py "accepted", .bool false), (py "reason", .str reason),
    (py "stage", .str stage)] ++ kw))).map fun feedback => ⟨.rejected, feedback, []⟩

/-- The keyword argument `detail`. -/
def detail {F : Type} (s : PyStr) : Dict (Json F) := [(py "detail", .str s)]

/-! ### The nominated cases -/

/-- `MAX_CASES`, `MAX_ARGS`, `MAX_ARG`, `MAX_STDIN`. -/
def maxCases : ℕ := 16
def maxArgs : ℕ := 16
def maxArg : ℕ := 256
def maxStdin : ℕ := 4096

section Cases

variable {F : Type} [Runtime F]

/-- A case as it is nominated: arguments and hexadecimal input, in the limits. -/
def caseShape (c : Json F) : Option Input := do
  let d ← c.obj?
  let argv ← (← d.lookup (py "argv")).strs?
  let stdinHex ← (← d.lookup (py "stdin_hex")).str?
  if sameKeys (Dict.keys d) [py "argv", py "stdin_hex"] ∧ argv.length ≤ maxArgs ∧
      (argv.all fun a => a.length ≤ maxArg && (0 : CodePoint) ∉ a) ∧
      stdinHex.length ≤ 2 * maxStdin then
    some (argv, stdinHex)
  else none

/-- One round of the loop over the cases. -/
def parseCase (c : Json F) : Except PyStr Input :=
  match caseShape c with
  | none => .error (py "each case is \x7b\"argv\": [str], \"stdin_hex\": str\x7d with at most 16 args of 256 chars and 4096 stdin bytes")
  | some input =>
      match fromHex input.2 with
      | none => .error (py "stdin_hex is not hex: " ++ reprStr F (input.2.take 64))
      | some _ => .ok input

/-- `_parse_cases(raw)`: the cases, deduplicated in order, or why they are malformed. -/
def parseCases (F : Type) [Runtime F] (raw : Bytes) : Except PyStr (List Input) :=
  match loads (F := F) raw with
  | none => .error (py "cases.json is not JSON")
  | some (.arr cs) =>
      if cs.length ≤ maxCases then (cs.mapM parseCase).map (sights [])
      else .error (py "cases.json must be a list of at most 16 cases")
  | some _ => .error (py "cases.json must be a list of at most 16 cases")

end Cases

/-! ### Before the job -/

/-- `JobResult`: the output is capped, and lengths and the return code are those of a
64-bit host. -/
structure JobResult where
  returncode : ℤ
  timedOut : Bool
  truncated : Bool
  stdout : Bytes
  stderr : Bytes
  stdout_le : stdout.length ≤ 256 * 1024
  stderr_lt : stderr.length < 2 ^ 63
  returncode_lt : returncode.natAbs < 2 ^ 63

theorem nil_stdout_le : ([] : Bytes).length ≤ 256 * 1024 := by decide

theorem nil_stderr_lt : ([] : Bytes).length < 2 ^ 63 := by decide

theorem zero_returncode_lt : (0 : ℤ).natAbs < 2 ^ 63 := by decide

/-- What the job receives, but for the recorder and its driver. -/
structure ReplayJob where
  source : PyStr
  cases : List Input

/-- What the checker is given: the candidate, the guest program and its path, the inputs drawn
for the hidden suite, and the sandbox. -/
structure ReplayContext where
  candidate : Dict Bytes
  guest : Guest
  binary : PyStr
  draws : ℕ → List PyStr × Bytes
  runJob : ReplayJob → JobResult
  factsLimit : ℕ

/-- A candidate that reaches the job: its source and its cases, and the ground truth of the
cases and of the hidden suite. -/
structure Replay where
  source : PyStr
  cases : List Input
  recorded : List Trace
  hidden : List Trace

/-- `rec + hidden`. -/
def Replay.traces (p : Replay) : List Trace := p.recorded ++ p.hidden

section Check

variable (F : Type) [Runtime F]

/-- The nominated cases recorded in turn, or the arguments of the first flaky one. -/
def recordCases (guest : Guest) (binary : PyStr) : ℕ → List Input → Except (List PyStr) (List Trace)
  | _, [] => .ok []
  | k, (argv, stdinHex) :: cs =>
      match recordStable F guest binary k argv ((fromHex stdinHex).getD []) with
      | none => .error argv
      | some t =>
          match recordCases guest binary (k + 2) cs with
          | .error e => .error e
          | .ok ts => .ok (t :: ts)

/-- The first part of `ProgramReplay.check`: the ground truth, or the verdict of a candidate
that does not reach the job. -/
def prepare (ctx : ReplayContext) : Except (Option (CheckVerdict F)) Replay :=
  match candidateFiles F ctx.candidate with
  | .error why => .error (replayReject (py "candidate") (py "candidate") (detail why))
  | .ok files =>
      match files.lookup (py "model.c") with
      | none => .error (replayReject (py "candidate") (py "candidate") (detail (py "model.c is missing")))
      | some model =>
          match decodeUtf8 .strict model with
          | none =>
              .error (replayReject (py "candidate") (py "candidate") (detail (py "model.c is not UTF-8")))
          | some source =>
              if py "params.json" ∈ files.keys then
                .error (replayReject (py "candidate") (py "candidate")
                  (detail (py "params.json belongs to function tasks")))
              else
                match parseCases F ((files.lookup (py "cases.json")).getD (encode (py "[]"))) with
                | .error why => .error (replayReject (py "cases") (py "candidate") (detail why))
                | .ok cases =>
                    match recordCases F ctx.guest ctx.binary 0 cases with
                    | .error argv =>
                        .error (replayReject (py "flaky-case") (py "recorded") [(py "argv", strs argv)])
                    | .ok recorded =>
                        .ok ⟨source, cases, recorded, hiddenSuite F ctx.guest ctx.binary ctx.draws
                          (2 * cases.length) recorded⟩

/-! ### After the job -/

/-- `_hex(s)`. -/
def isHexJson {F : Type} (v : Json F) : Bool :=
  match v with
  | .str s => (fromHex s).isSome
  | _ => false

/-- The shape of an event. -/
def eventOk {F : Type} (e : Json F) : Bool :=
  ((e.get? (py "sc")).bind Json.str?).isSome && ((e.get? (py "phase")).bind Json.str?).isSome &&
    ((e.get? (py "args")).bind Json.strs?).isSome

/-- `_trace_ok(t)`. -/
def traceOk {F : Type} (t : Json F) : Bool :=
  ((t.get? (py "stdout")).any isHexJson) && ((t.get? (py "stderr")).any isHexJson) &&
    ((t.get? (py "exit_code")).bind Json.int?).isSome &&
    (((t.get? (py "files_written")).bind Json.obj?).any fun d => d.all fun e => e.2.str?.isSome) &&
    (((t.get? (py "events")).bind Json.arr?).any fun es => es.all eventOk)

/-- `b.decode(errors="replace")`. -/
def decodeReplace (b : Bytes) : PyStr := (decodeUtf8 .replace b).getD []

/-- What is told about a job that did not replay. -/
def faultText (r : JobResult) : PyStr :=
  py "rc=" ++ intText r.returncode ++ py ": " ++ decodeReplace r.stderr

/-- The output of the job as JSON lines, `none` where it is not. -/
def jobLines (stdout : Bytes) : Option (List (Json F)) :=
  (decodeUtf8 .strict stdout).bind fun s => (splitLines s).mapM loadsText

/-- What the compiler said, where the only line of the job is its report. -/
def compileReport {F : Type} (lines : Option (List (Json F))) : Option (Json F) :=
  match lines with
  | some (.obj d :: _) =>
      if sameKeys (Dict.keys d) [py "compile"] then d.lookup (py "compile") else none
  | _ => none

/-- The fact of an accepted model, with its digest where the source is too long. -/
def sourceFact (factsLimit : ℕ) (source : PyStr) : Json F :=
  let fact : Json F := .obj [(py "fn", .str (py "__main__")), (py "c_source", .str source)]
  if factsLimit < (dumpsSorted indent2 (.arr [fact])).length then
    .obj [(py "fn", .str (py "__main__")),
      (py "c_source_sha256", .str (Runtime.sha256 F (encode source)))]
  else fact

/-- The verdict on the replayed lines. -/
def judgeLines (factsLimit : ℕ) (p : Replay) (lines : List (Json F)) : Option (CheckVerdict F) := do
  let v ← compare p.recorded (lines.take p.recorded.length)
  if v.ok = false then
    replayReject v.reason (py "recorded") [(py "divergence", v.divergence)]
  else if p.hidden.length < hiddenN then
    replayReject (py "hidden-starvation") (py "hidden")
      (detail (natText p.hidden.length ++ py "/8 usable hidden inputs"))
  else
    let w ← compare p.hidden (lines.drop p.recorded.length)
    if w.ok = false then
      replayReject w.reason (py "hidden") [(py "divergence", w.divergence)]
    else
      some ⟨.passed, .obj [(py "accepted", .bool true),
        (py "recorded_cases", .int p.recorded.length), (py "hidden_cases", .int hiddenN)],
        [sourceFact F factsLimit p.source]⟩

/-- The second part of `ProgramReplay.check`: the verdict on the job's result. -/
def judge (factsLimit : ℕ) (p : Replay) (r : JobResult) : Option (CheckVerdict F) :=
  if r.timedOut then replayReject (py "replay-timeout") (py "replay") []
  else if r.truncated then
    replayReject (py "replay-output") (py "replay") (detail (py "job output over cap"))
  else
    let lines := jobLines (F := F) r.stdout
    match (if r.returncode = 0 then compileReport lines else none) with
    | some report => replayReject (py "compile") (py "compile") (detail (pyStr report))
    | none =>
        match lines with
        | some ls =>
            if r.returncode = 0 ∧ ls.length = p.traces.length ∧ ls.all traceOk then
              judgeLines F factsLimit p ls
            else replayReject (py "replay-fault") (py "replay") (detail (faultText r))
        | none => replayReject (py "replay-fault") (py "replay") (detail (faultText r))

/-- `ProgramReplay.check(ctx)`. -/
def checkReplay (ctx : ReplayContext) : Option (CheckVerdict F) :=
  match prepare F ctx with
  | .error verdict => verdict
  | .ok p => judge F ctx.factsLimit p
      (ctx.runJob ⟨p.source, p.traces.map Trace.input⟩)

end Check

end ReSchema
