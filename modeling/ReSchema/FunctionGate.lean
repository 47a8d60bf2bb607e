/-
ReSchema/FunctionGate.lean

The function checker (`validate/function.py` and `checks/function_fuzz.py`).

`validateFunction` draws a round, runs the original on it, and refuses rounds
that would show too little (`floors`); the surviving cases go to a job, and
`judgeClaim` compares the answers of the job with those of the original.  The
output of the job is whatever the candidate prints: `jobModel` reads it and
`claim` checks its shape.  `checkFunction` is the checker around all of this.

An `Option` is an exception where it is `none`.  What the disassembler finds in
the binary and how the original behaves stand in the round, and so does the
seed that the verdict reports.
-/
import ReSchema.Calling
import ReSchema.ProgramReplay

namespace ReSchema

open Py

/-! ### Cases as values -/

/-- The value of an argument on its way to the job: bytes as hex. -/
def Value.wire {F : Type} : Value → Json F
  | .int i => .int i
  | .bytes b => .str (hex b)
  | .cells xs => cellsJson xs

/-- `_wire(case)`. -/
def wire {F : Type} (case : Case) : Dict (Json F) := case.map fun e => (e.1, e.2.wire)

section Texts

variable (F : Type) [Runtime F]

/-- The value of an argument in a divergence. -/
def Value.preview : Value → Json F
  | .int i => .int i
  | .bytes b => .str ((reprBytes b).take 80)
  | .cells xs => .str ((pyRepr (cellsJson (F := F) xs)).take 80)

/-- `_preview(case)`. -/
def preview (case : Case) : Json F := .obj (case.map fun e => (e.1, e.2.preview F))

/-- The text of a case in the set of distinct inputs. -/
def caseText (case : Case) : PyStr := dumpsSorted plain (.obj (wire (F := F) case))

variable {F}

/-- `repr` of what was read back for one parameter. -/
def MemItem.repr : MemItem F → PyStr
  | .bytes b => reprBytes b
  | .json v => pyRepr v

/-- `str(mem)`. -/
def memText (mem : Dict (MemItem F)) : PyStr :=
  ch '\x7b' :: (commaJoin (mem.map fun e => reprStr F e.1 ++ py ": " ++ e.2.repr) ++ [ch '\x7d'])

/-- `x == y`: bytes equal no list. -/
def MemItem.eq : MemItem F → MemItem F → Bool
  | .bytes a, .bytes b => a == b
  | .json v, .json w => pyEq v w
  | _, _ => false

/-- `want["mem"] == got["mem"]`. -/
def memEq (want got : Dict (MemItem F)) : Bool :=
  want.length == got.length && want.all fun e =>
    match got.lookup e.1 with
    | some item => e.2.eq item
    | none => false

end Texts

/-! ### The round -/

/-- A case of the round, and whether the declaration made it. -/
structure RoundCase where
  case : Case
  declared : Bool

/-- What `validate_function` is called with, and what the binary makes of it. -/
structure FunctionRound (F : Type) where
  func : PyStr
  source : PyStr
  params : List Param
  seed : Json F
  stream : Stream
  nFuzz : ℕ
  immediates : List UInt32
  original : Original

/-- The cases of the round: scouts at the front, then what was drawn. -/
def FunctionRound.cases {F : Type} (x : FunctionRound F) : List RoundCase :=
  mergeScoutCases ((genInputs x.stream x.params 0 x.nFuzz).map fun c => ⟨c, true⟩)
    ((scoutInputs x.params (x.immediates.map UInt32.toNat)).map fun c => ⟨c, false⟩) x.nFuzz

/-- `params and params[0].ret == "void"`. -/
def returnsVoid (params : List Param) : Bool := params.head?.any fun p => p.ret = .void

/-- A parameter whose memory is compared. -/
def isChannel (p : Param) : Bool := p.kind = .bufferI32 ∨ p.kind = .cstring

/-- A function without a result of which nothing is compared. -/
def scalarVoid (params : List Param) : Bool := returnsVoid params && !params.any isChannel

/-- A case that the original survived, with its answer. -/
structure Survivor (F : Type) extends RoundCase where
  ret : ℤ
  mem : Dict (MemItem F)

/-- `kept`. -/
def survivors {F : Type} (round : List (RoundCase × Want F)) : List (Survivor F) :=
  round.filterMap fun e =>
    match e.2 with
    | .fault _ => none
    | .ran ret mem => some ⟨e.1, ret, mem⟩

/-- `_is_mem_fault(want)`. -/
def Want.isMemFault {F : Type} : Want F → Bool
  | .fault memFault => memFault
  | .ran _ _ => false

/-! ### The verdict -/

/-- `FnVerdict`. -/
structure FnVerdict (F : Type) where
  ok : Bool
  divergence : Option (Json F)
  compared : ℕ
  skipped : ℕ
  seed : Option (Json F)

section Verdicts

variable {F : Type}

/-- A rejection before anything is compared. -/
def stageReject (stage detail : PyStr) (kw : Dict (Json F)) (skipped : ℕ) : FnVerdict F :=
  ⟨false, some (.obj ([(py "stage", .str stage), (py "detail", .str detail)] ++ kw)), 0, skipped,
    none⟩

/-- A rejection at the case that was compared last. -/
def fieldReject [Runtime F] (s : Survivor F) (field : PyStr) (expected actual : PyStr)
    (seed : Json F) (compared skipped : ℕ) : FnVerdict F :=
  ⟨false, some (.obj [(py "input", preview F s.case), (py "field", .str field),
    (py "expected", .str expected), (py "actual", .str actual), (py "seed", seed)]), compared,
    skipped, none⟩

end Verdicts

section Validate

variable {F : Type} [Runtime F]

/-! ### The floors -/

/-- The texts of the declared cases that survived, each once. -/
def distinctTexts (kept : List (Survivor F)) : List PyStr :=
  ((kept.filter fun s => s.declared).map fun s => caseText F s.case).dedup

/-- The checks between the original's answers and the job: the survivors, or a rejection. -/
def floors (nFuzz : ℕ) (seed : Json F) (round : List (RoundCase × Want F)) :
    Except (FnVerdict F) (List (Survivor F)) :=
  let kept := survivors round
  let skipped := round.length - kept.length
  if kept = [] then
    .error (stageReject (py "skip-starvation")
      (py "original faulted on all " ++ natText nFuzz ++ py " fuzz cases")
      [(py "seed", seed)] skipped)
  else
    match round.filter fun e => e.1.declared && e.2.isMemFault with
    | first :: rest =>
        .error (stageReject (py "spec")
          (py "original faulted on " ++ natText (first :: rest).length ++ py " of " ++
            natText (round.filter fun e => e.1.declared).length ++
            py " declared fuzz case(s) with a memory fault — e.g. " ++
            pyRepr (preview F first.1.case) ++
            py (". The declared spec drives the original into invalid memory: either a " ++
              "parameter it dereferences is declared as a scalar (declare it buffer_i32 or " ++
              "cstring), or a declared range admits values it cannot handle, such as an index " ++
              "past a table (narrow that range)"))
          [(py "seed", seed)] skipped)
    | [] =>
        if (distinctTexts kept).length < 2 then
          .error (stageReject (py "spec")
            (py "spec admits " ++ natText (distinctTexts kept).length ++
              py " distinct surviving input(s) over " ++ natText nFuzz ++
              py " draws (need >=2) — declare at least one varying parameter")
            [(py "seed", seed)] skipped)
        else .ok kept

/-! ### The comparison -/

/-- `k in v`, with `none` for a value that nothing is in. -/
def contains (k : PyStr) : Json F → Option Bool
  | .obj d => some (k ∈ Dict.keys d)
  | .arr xs => some (xs.any (pyEq (.str k)))
  | .str s => some (s.tails.any k.isPrefixOf)
  | _ => none

/-- `_crash_text(crash)`; a crash that is no dictionary has only the last of the shapes. -/
def crashText (crash : Json F) : PyStr :=
  match crash.get? (py "signal") with
  | some signal => py "signal " ++ pyStr signal
  | none => if (crash.get? (py "timeout")).isSome then py "timeout" else pyStr crash

/-- `bytes.fromhex(v) if kinds[k] == "cstring" else v`. -/
def readMem (params : List Param) (k : PyStr) (v : Json F) : Option (MemItem F) :=
  match params.find? fun p => p.name = k with
  | none => none
  | some p =>
      match p.kind with
      | .cstring => (v.str?.bind fromHex).map .bytes
      | _ => some (.json v)

/-- `got_cmp`: the return value and the memory of an answer, with `none` for an exception. -/
def readAnswer (params : List Param) (got : Json F) : Option (Json F × Dict (MemItem F)) := do
  let ret ← got.get? (py "ret")
  let mem ← (← got.get? (py "mem")).obj?
  let items ← mem.mapM fun e => (readMem params e.1 e.2).map fun item => (e.1, item)
  return (ret, items)

/-- One round of the loop over the answers: `none` for an exception, `some none` where the
answer is that of the original. -/
def compareCase (params : List Param) (seed : Json F) (skipped compared : ℕ) (s : Survivor F)
    (got : Json F) : Option (Option (FnVerdict F)) := do
  if ← contains (py "crash") got then
    let crash ← got.get? (py "crash")
    return some (fieldReject s (py "crash") (py "no crash") (crashText crash) seed compared skipped)
  let (ret, mem) ← readAnswer params got
  if !memEq s.mem mem then
    return some (fieldReject s (py "mem") ((memText s.mem).take 400) ((memText mem).take 400) seed
      compared skipped)
  if !returnsVoid params && !pyEq (.int s.ret) ret then
    return some (fieldReject s (py "ret") ((intText s.ret).take 400) ((pyStr ret).take 400) seed
      compared skipped)
  return none

/-- The loop over the answers, after `compared` rounds. -/
def compareCases (params : List Param) (seed : Json F) (skipped : ℕ) :
    ℕ → List (Survivor F × Json F) → Option (FnVerdict F)
  | compared, [] => some ⟨true, none, compared, skipped, some seed⟩
  | compared, (s, got) :: rest =>
      match compareCase params seed skipped (compared + 1) s got with
      | none => none
      | some (some v) => some v
      | some none => compareCases params seed skipped (compared + 1) rest

/-- Whether a list of answers may be compared: one for each case, or cut short by a crash. -/
def wellFormedResults (n : ℕ) (res : List (Json F)) : Option Bool :=
  if res.length = n then some true
  else if 0 < res.length ∧ res.length < n then res.getLast?.bind (contains (py "crash"))
  else some false

/-- The verdict on the answer of the job. -/
def judgeClaim (params : List Param) (seed : Json F) (skipped : ℕ) (kept : List (Survivor F))
    (r : Dict (Json F)) : Option (FnVerdict F) := do
  let malformed : FnVerdict F := stageReject (py "worker")
    (py "worker results malformed for " ++ natText kept.length ++ py " cases") [] skipped
  if py "stage" ∈ Dict.keys r then
    return ⟨false, some (.obj r), 0, 0, none⟩
  match (r.lookup (py "results")).bind Json.arr? with
  | none => return malformed
  | some res =>
      if ← wellFormedResults kept.length res then
        compareCases params seed skipped 0 (kept.zip res)
      else return malformed

/-! ### `validate_function` -/

/-- The job: the source, the declaration and the surviving cases. -/
def functionJob (x : FunctionRound F) (kept : List (Survivor F)) : Dict (Json F) :=
  [(py "mode", .str (py "validate")), (py "c_source", .str x.source), (py "fname", .str x.func),
    (py "params", .arr (x.params.map Param.toJson)),
    (py "cases", .arr (kept.map fun s => .obj (wire s.case)))]

/-- `validate_function(...)`, with `none` for an exception. -/
def validateFunction (x : FunctionRound F)
    (runModel : Dict (Json F) → Option (Dict (Json F))) : Option (FnVerdict F) :=
  if registerCount < x.params.length then
    some (stageReject (py "arity") (natText x.params.length ++ py " params exceed " ++
      natText registerCount ++ py " register-passed args") [] 0)
  else if scalarVoid x.params then
    some (stageReject (py "spec") (py ("ret \"void\" requires >=1 memory-channel param " ++
      "(buffer_i32/cstring); scalar-only compares nothing")) [] 0)
  else do
    let wants ← batchCallOriginal F x.original x.params (x.cases.map RoundCase.case)
    let round := x.cases.zip wants
    match floors x.nFuzz x.seed round with
    | .error v => return v
    | .ok kept =>
        let r ← runModel (functionJob x kept)
        judgeClaim x.params x.seed (round.length - kept.length) kept r

/-! ### The claim of the job -/

/-- `_CAP`. -/
def textCap : ℕ := 4096

/-- What the job receives, but for its two fixed files. -/
structure WorkerJob where
  stdin : Bytes
  timeoutSeconds : ℕ

/-- The kinds of the parameters with memory, by name.  The parameters come from the host, so
that each name is a text. -/
def memKinds (params : List (RawParam F)) : Dict Kind :=
  Dict.update [] (params.filterMap fun p =>
    if p.kind = .i32 then none else p.name.str?.map fun name => (name, p.kind))

/-- The shape of the memory behind one parameter. -/
def memShape (kind : Option Kind) (v : Json F) : Bool :=
  match kind with
  | none => false
  | some .cstring => (v.str?.bind fromHex).isSome
  | some _ => v.arr?.any fun xs => xs.all fun x => x.int?.isSome

/-- `_value(got, mem)`. -/
def isValue (mem : Dict Kind) (got : Json F) : Bool :=
  match got with
  | .obj d =>
      sameKeys (Dict.keys d) [py "ret", py "mem"] &&
        match d.lookup (py "ret"), d.lookup (py "mem") with
        | some (.int _), some (.obj m) =>
            sameKeys (Dict.keys m) mem.keys && m.all fun e => memShape (mem.lookup e.1) e.2
        | _, _ => false
  | _ => false

/-- `_crash(c)`. -/
def crashShape (c : Json F) : Json F :=
  if pyEq c (.obj [(py "timeout", .bool true)]) then c
  else match c with
    | .obj d =>
        if sameKeys (Dict.keys d) [py "signal"] ∧ ((d.lookup (py "signal")).bind Json.int?).isSome
        then c
        else .obj [(py "error", .str ((pyStr c).take 200))]
    | _ => .obj [(py "error", .str ((pyStr c).take 200))]

/-- The last answer of a list: a crash, or a value where the list is complete. -/
def lastAnswer (mem : Dict Kind) (complete : Bool) (last : Json F) : Option (Json F) :=
  match last.obj? with
  | some [(k, c)] =>
      if k = py "crash" then some (.obj [(py "crash", crashShape c)])
      else if complete && isValue mem last then some last else none
  | _ => if complete && isValue mem last then some last else none

/-- The answer of a job that has none. -/
def workerStage (detail : PyStr) : Dict (Json F) :=
  [(py "stage", .str (py "worker")), (py "detail", .str detail)]

/-- `_claim(out, params, n)`. -/
def claim (out : Json F) (params : List (RawParam F)) (n : ℕ) : Dict (Json F) :=
  match out with
  | .obj d =>
      if py "stage" ∈ Dict.keys d then
        [py "stage", py "detail", py "stderr"].filterMap fun k =>
          (d.lookup k).map fun v => (k, .str ((pyStr v).take textCap))
      else
        let malformed := workerStage (py "worker results malformed for " ++ natText n ++ py " cases")
        match (d.lookup (py "results")).bind Json.arr? with
        | none => malformed
        | some res =>
            match res.getLast? with
            | none => malformed
            | some last =>
                if n < res.length then malformed
                else match lastAnswer (memKinds params) (decide (res.length = n)) last with
                  | none => malformed
                  | some last =>
                      if res.dropLast.all (isValue (memKinds params)) then
                        [(py "results", .arr (res.dropLast ++ [last]))]
                      else malformed
  | _ => workerStage (py "worker output is not an object")

/-- `job_model(run_job)`, with `none` for an exception. -/
def jobModel (runJob : WorkerJob → JobResult) (job : Dict (Json F)) : Option (Dict (Json F)) := do
  let cases ← (← job.lookup (py "cases")).arr?
  -- a case may take five seconds, and two more for the fork
  let r := runJob ⟨encode (dumps plain (.obj job)), 120 + cases.length * 7⟩
  if r.returncode ≠ 0 ∨ r.timedOut ∨ r.truncated then
    return workerStage (py "job rc=" ++ intText r.returncode ++ py " timed_out=" ++
      pyRepr (.bool r.timedOut : Json F) ++ py " truncated=" ++
      pyRepr (.bool r.truncated : Json F) ++ py ": " ++ takeLast textCap (decodeReplace r.stderr))
  match loads (F := F) r.stdout with
  | none => return workerStage (py "worker output is not JSON")
  | some out =>
      let ds ← (← (← job.lookup (py "params")).arr?).mapM Json.obj?
      match ds.mapM fromJson with
      | .error _ => none
      | .ok params => return claim out params cases.length

/-! ### The checker -/

/-- `_reject(feedback)`. -/
def functionReject (feedback : Dict (Json F)) : CheckVerdict F :=
  let out : Dict (Json F) := Dict.update [(py "accepted", .bool false)] feedback
  if feedbackLimit / 2 < (dumps plain (.obj out)).length then
    ⟨.rejected, .obj (Dict.update [(py "accepted", .bool false)]
      (feedback.map fun e => (e.1, .str ((pyStr e.2).take textCap)))), []⟩
  else ⟨.rejected, .obj out, []⟩

/-- A rejection of the candidate before it is tried. -/
def specReject (detail : PyStr) : CheckVerdict F :=
  functionReject [(py "reason", .str (py "spec")), (py "detail", .str detail)]

/-- What the checker is given: the candidate, the name of the function and what its binary
makes of a round, the seed, the sandbox, and the text of a decoding error. -/
structure FunctionContext (F : Type) where
  candidate : Dict Bytes
  func : PyStr
  seed : Json F
  stream : Stream
  nFuzz : ℕ
  immediates : List UInt32
  original : Original
  runJob : WorkerJob → JobResult
  decodeError : Bytes → PyStr
  factsLimit : ℕ

/-- The first part of `FunctionFuzz.check`: the declaration and the source, or a rejection. -/
def readFunction (candidate : Dict Bytes) (decodeError : Bytes → PyStr) :
    Except (CheckVerdict F) (Dict Bytes × List Param × PyStr) :=
  match candidateFiles F candidate with
  | .error why => .error (specReject why)
  | .ok files =>
      match files.lookup (py "model.c"), files.lookup (py "params.json") with
      | none, none => .error (specReject (py "missing ['model.c', 'params.json']"))
      | none, some _ => .error (specReject (py "missing ['model.c']"))
      | some _, none => .error (specReject (py "missing ['params.json']"))
      | some model, some spec =>
          if py "cases.json" ∈ files.keys then
            .error (specReject (py "cases.json belongs to program tasks"))
          else match paramsOf F spec with
            | .error why => .error (specReject (why.take textCap))
            | .ok params =>
                match decodeUtf8 .strict model with
                | none => .error (specReject ((decodeError model).take textCap))
                | some source => .ok (files, params, source)

/-- The fact of an accepted function, with digests where it is too long. -/
def functionFact (factsLimit : ℕ) (func : PyStr) (params : List Param) (source : PyStr)
    (files : Dict Bytes) : Json F :=
  let fact : Json F := .obj [(py "function", .str func),
    (py "params", .arr (params.map Param.toJson)), (py "source", .str source)]
  let digest : PyStr → Json F := fun name =>
    .str (Runtime.sha256 F ((files.lookup name).getD []))
  if factsLimit / 2 < (dumps indent2 (.arr [fact])).length then
    .obj [(py "function", .str func), (py "params_sha256", digest (py "params.json")),
      (py "source_sha256", digest (py "model.c"))]
  else fact

/-- `FunctionFuzz.check(ctx)`, with `none` for an exception. -/
def checkFunction (ctx : FunctionContext F) : Option (CheckVerdict F) :=
  match readFunction ctx.candidate ctx.decodeError with
  | .error verdict => some verdict
  | .ok (files, params, source) =>
      (validateFunction ⟨ctx.func, source, params, ctx.seed, ctx.stream, ctx.nFuzz,
        ctx.immediates, ctx.original⟩ (jobModel ctx.runJob)).map fun v =>
        if v.ok then
          ⟨.passed, .obj [(py "accepted", .bool true), (py "compared", .int v.compared),
            (py "skipped", .int v.skipped)],
            [functionFact ctx.factsLimit ctx.func params source files]⟩
        else functionReject [(py "divergence", v.divergence.getD .null)]

end Validate

end ReSchema
