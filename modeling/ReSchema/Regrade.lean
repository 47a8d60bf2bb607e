/-
ReSchema/Regrade.lean

Re-grading recorded checks (`regrade.py`).

A checker is an interaction: it draws seeds and runs jobs in any order, each
step depending on what came back from the steps before, until it has a verdict
or raises.  `regrade` rebuilds from the ledger what the checker of a completed
check saw, and runs the current checker of that name on it, with the recorded
seeds in place of fresh draws.

The ledger and the job runner belong to the host: its artifacts are read
through it, and a read either gives the bytes or fails with a text.  An
exception that `regrade` does not catch is `none`.
-/
import ReSchema.ProgramReplay

namespace ReSchema

open Py

/-! ### Checkers -/

/-- A job: the image it runs in, its command and its files. -/
structure Job where
  image : PyStr
  argv : List PyStr
  files : Dict Bytes

/-- What a checker does from some point on. -/
inductive Proc (F : Type)
  | done (verdict : CheckVerdict F)
  | fault
  | draw (next : Json F → Proc F)
  | run (job : Job) (next : JobResult → Proc F)

/-- A checker, on the files of the candidate, the inputs and the private files. -/
structure Checker (F : Type) where
  version : PyStr
  check : Dict Bytes → Dict Bytes → Dict Bytes → Proc F

/-- `str(status)`. -/
def VerdictStatus.text : VerdictStatus → PyStr
  | .passed => py "passed"
  | .rejected => py "rejected"

/-! ### The ledger -/

/-- A reference to an artifact. -/
structure Ref where
  digest : PyStr
  deriving DecidableEq

/-- An operation; the artifacts are those of its completion, if it has one. -/
structure Operation where
  kind : PyStr
  operationId : PyStr
  producerVersion : PyStr
  inputs : Dict Ref
  artifacts : Option (Dict Ref)

/-- A recorded observation. -/
structure Observation where
  sequence : ℕ
  inputs : Dict Ref

/-- The ledger; `lookup` verifies an operation again. -/
structure Ledger where
  operations : List Operation
  history : List Observation
  lookup : Operation → Except PyStr Operation
  read : Ref → Except PyStr Bytes

/-- The host: the job runner, and the bytes on which `json.loads` fails with `RecursionError`, which
is no `ValueError`. -/
structure Host where
  runJob : Job → JobResult
  tooDeep : Bytes → Bool

/-- The domain: its checkers by their names, and its image. -/
structure Domain (F : Type) where
  checkers : Dict (Checker F)
  workerImage : PyStr

/-- Why a check is not judged again. -/
inductive Stop
  | refused (text : PyStr)
  | unreplayable (text : PyStr)
  | escapes

section Evidence

variable (F : Type) [Runtime F]

/-! ### Names -/

/-- The value of a decimal digit. -/
def decimalVal (c : CodePoint) : Option ℕ :=
  if isDigit c then some (c.val - 0x30) else Runtime.decimal F c

/-- `\d+` on the whole text. -/
def isDecimal (s : PyStr) : Bool := s ≠ [] && s.all fun c => (decimalVal F c).isSome

/-- `int(s)` of decimal digits, with `none` for a text that is too long. -/
def intDecimal (s : PyStr) : Option ℕ :=
  if s.length ≤ maxStrDigits then
    some (s.foldl (fun n c => 10 * n + (decimalVal F c).getD 0) 0)
  else none

/-- The text of that `ValueError`. -/
def tooLongText (s : PyStr) : PyStr :=
  py "Exceeds the limit (4300 digits) for integer string conversion: value has " ++
    natText s.length ++ py " digits; use sys.set_int_max_str_digits() to increase the limit"

/-- `_CHECK.fullmatch(operation_id)`: the run, the number of the submission and the name. -/
def matchCheck (operationId : PyStr) : Option (PyStr × PyStr × PyStr) :=
  match splitText (py "/") operationId with
  | [a, run, b, n, c, name] =>
      if a = py "run" ∧ run ≠ [] ∧ b = py "submission" ∧ isDecimal F n ∧ c = py "check" ∧ name ≠ []
      then some (run, n, name) else none
  | _ => none

/-- `_EVIDENCE.fullmatch(name)`: the sequence number and the channel.  The revision is left out of
the channel, unless nothing would remain. -/
def matchEvidence (name : PyStr) : Option (PyStr × PyStr) := do
  let rest ← stripPrefix (py "observation/") name
  let p := partition (py "/") rest
  let channel := match stripPrefix (py "revision/") p.2 with
    | some r =>
        let q := partition (py "/") r
        if isDecimal F q.1 ∧ q.2 ≠ [] then q.2 else p.2
    | none => p.2
  if isDecimal F p.1 ∧ channel ≠ [] ∧ ch '\n' ∉ channel then some (p.1, channel) else none

/-! ### What the recorded check saw and decided -/

/-- `_NOTES`. -/
def noteFiles : List PyStr := [py "notes.json", py "notes-error.txt"]

/-- The files in the inputs of the check, and the submission that it names. -/
structure Gathered where
  inputs : Dict Bytes
  priv : Dict Bytes
  target : Option (ℕ × Ref)

/-- What `_evidence` returns. -/
structure Evidence where
  candidate : Dict Bytes
  inputs : Dict Bytes
  priv : Dict Bytes
  verdict : Json F
  seeds : Json F
  images : List (Json F)

variable {F}

/-- The items that an iteration over a value goes through, with `none` for a `TypeError`. -/
def Json.items? : Json F → Option (List (Json F))
  | .arr xs => some xs
  | .obj d => some ((Dict.keys d).map .str)
  | .str s => some (s.map fun c => .str [c])
  | _ => none

/-- `len(v)`, in the same way. -/
def Json.len? (v : Json F) : Option ℕ := (Json.items? v).map List.length

/-- `v[i]`, with `none` for a `TypeError` or a `KeyError`. -/
def Json.item? : Json F → ℕ → Option (Json F)
  | .arr xs, i => xs[i]?
  | .str s, i => s[i]?.map fun c => .str [c]
  | _, _ => none

/-- A value that may be in a set. -/
def Json.hashable : Json F → Bool
  | .arr _ => false
  | .obj _ => false
  | _ => true

variable (host : Host) (ledger : Ledger)

/-- `ledger.read_artifact(ref)`. -/
def readArtifact (ref : Ref) : Except Stop Bytes :=
  match ledger.read ref with
  | .ok b => .ok b
  | .error text => .error (.refused text)

/-- `_json(ledger, ref)`. -/
def readJson (ref : Ref) : Except Stop (Json F) := do
  let b ← readArtifact ledger ref
  match loads b with
  | some v => .ok v
  | none => .error (if host.tooDeep b then .escapes else .refused (Runtime.loadsError F b))

/-- A value that has to be there, or an exception that is not caught. -/
def orEscape {α : Type} : Option α → Except Stop α
  | some a => .ok a
  | none => .error .escapes

/-- One input of the check. -/
def gatherInput (F : Type) [Runtime F] (acc : Gathered) (input : PyStr × Ref) :
    Except Stop Gathered :=
  let m := (matchEvidence F input.1).getD ([], [])
  let p := partition (py "/") m.2
  if m.2 = py "submission.json" then
    match intDecimal F m.1 with
    | some n => .ok { acc with target := some (n, input.2) }
    | none => .error (.refused (tooLongText m.1))
  else if p.1 = py "input" ∧ p.2 ≠ [] then
    (readArtifact ledger input.2).map fun b => { acc with inputs := acc.inputs.set p.2 b }
  else if p.1 = py "private" ∧ p.2 ≠ [] then
    (readArtifact ledger input.2).map fun b => { acc with priv := acc.priv.set p.2 b }
  else .error (.refused (py "unexpected check input " ++ reprStr F input.1))

/-- One file of the submission, against what the submission says of it. -/
def captureFile (claimed : Json F) (candidate : Dict Bytes) (input : PyStr × Ref) :
    Except Stop (Dict Bytes) := do
  let file := (partition (py "/candidate/") input.1).2
  let d ← orEscape claimed.obj?
  if ((d.lookup file).bind Json.str?) ≠ some input.2.digest then
    .error (.refused (py "candidate file " ++ reprStr F file ++ py " does not match the submission"))
  else if file ∈ noteFiles then .ok candidate
  else (readArtifact ledger input.2).map fun b => candidate.set file b

/-- The images of the jobs. -/
def jobImages (jobs : Json F) : Option (List (Json F)) := do
  let items ← Json.items? jobs
  items.mapM fun j => do
    let image ← j.get? (py "image")
    if Json.hashable image then some image else none

/-- `{o.sequence: o for o in ledger.history()}[n]`. -/
def observationAt (n : ℕ) : Option Observation :=
  ledger.history.reverse.find? fun o => o.sequence = n

/-- The channels that a completion with a verdict has to have beside it. -/
def missingChannels (artifacts : Dict Ref) : List PyStr :=
  [py "jobs.json", py "seeds.json"].filter fun c => c ∉ artifacts.keys

/-- `_evidence(ledger, op, observations)`. -/
def evidence (F : Type) [Runtime F] (op : Operation) : Except Stop (Evidence F) := do
  let gathered ← op.inputs.foldlM (gatherInput ledger F) ⟨[], [], none⟩
  match gathered.target.bind fun t => (observationAt ledger t.1).map fun o => (t.2, o) with
  | none => .error (.refused (py "the check names no recorded submission"))
  | some (ref, observation) =>
      let claimed : Json F ← readJson host ledger ref
      let candidate ← observation.inputs.foldlM (captureFile ledger claimed) []
      let n ← orEscape (Json.len? claimed)
      if n ≠ observation.inputs.length then
        .error (.refused (py "the submission names files that were not captured"))
      else
        let artifacts ← orEscape op.artifacts
        match artifacts.lookup (py "verdict.json") with
        | none => .error (.unreplayable (py "the recorded check has no verdict"))
        | some verdictRef =>
            match artifacts.lookup (py "seeds.json"), artifacts.lookup (py "jobs.json") with
            | some seedsRef, some jobsRef =>
                let verdict ← readJson host ledger verdictRef
                let seeds ← readJson host ledger seedsRef
                let jobs : Json F ← readJson host ledger jobsRef
                let images ← orEscape (jobImages jobs)
                .ok ⟨candidate, gathered.inputs, gathered.priv, verdict, seeds, images⟩
            | _, _ => .error (.refused (py "verdict recorded without " ++
                pyRepr (strs (missingChannels artifacts) : Json F)))

/-! ### Replaying -/

/-- How a replayed check ends. -/
inductive Replayed (F : Type)
  | verdict (v : CheckVerdict F)
  | unreplayable (text : PyStr)
  | escapes

/-- `checker.check(ctx)` in a `_Replay`, with so many seeds already drawn. -/
def replay (seeds : Json F) (drawn : ℕ) : Proc F → Replayed F
  | .done v => .verdict v
  | .fault => .escapes
  | .draw next =>
      if Json.len? seeds = some drawn then
        .unreplayable (py "the checker draws more seeds than were recorded")
      else match Json.item? seeds drawn with
        | some s => replay seeds (drawn + 1) (next s)
        | none => .escapes
  | .run job next => replay seeds drawn (next (host.runJob job))

/-- One row; a key that is not set is `none`. -/
structure Row (F : Type) where
  run : PyStr
  submission : ℕ
  check : PyStr
  recorded : Option (Json F)
  checkerVersion : Option (PyStr × PyStr)
  refused : Option PyStr
  unreplayable : Option PyStr
  regraded : Option PyStr
  holds : Option Bool
  feedback : Option (Json F)

/-- A row with nothing but its check. -/
def Row.start (run : PyStr) (submission : ℕ) (check : PyStr) : Row F :=
  ⟨run, submission, check, none, none, none, none, none, none, none⟩

variable (domain : Domain F)

/-- The row of a check with its evidence, with `none` for an exception. -/
def regradeEvidence (op : Operation) (row : Row F) (ev : Evidence F) : Option (Row F) := do
  let status ← ev.verdict.get? (py "status")
  let row := { row with recorded := some status }
  if pyEq status (.str (py "infrastructure_failure")) then
    some { row with unreplayable := some (py "the recorded check was an infrastructure failure") }
  else
    match domain.checkers.lookup row.check with
    | none => some { row with unreplayable := some (py "no current checker of that name") }
    | some checker =>
        let row := { row with checkerVersion := some (op.producerVersion, checker.version) }
        if ev.images ≠ [] ∧ ¬ ∀ image ∈ ev.images, image.str? = some domain.workerImage then
          some { row with unreplayable := some (py "image changed") }
        else
          match replay host ev.seeds 0 (checker.check ev.candidate ev.inputs ev.priv) with
          | .escapes => none
          | .unreplayable text => some { row with unreplayable := some text }
          | .verdict v =>
              let holds := pyEq (.str v.status.text) status
              some { row with
                regraded := some v.status.text
                holds := some holds
                feedback := if holds then none else some v.feedback }

/-- The row of a check. -/
def regradeCheck (op : Operation) (row : Row F) : Option (Row F) :=
  let ev : Except Stop (Evidence F) := match ledger.lookup op with
    | .error text => .error (.refused text)
    | .ok op' => evidence host ledger F op'
  match ev with
  | .error (.refused text) => some { row with refused := some (py "tampered evidence: " ++ text) }
  | .error (.unreplayable text) => some { row with unreplayable := some text }
  | .error .escapes => none
  | .ok ev => regradeEvidence host domain op row ev

/-- The arguments `run` and `submission`. -/
structure RowFilter where
  run : Option PyStr
  submission : Option ℕ

/-- What the loop does with one operation: nothing, or a row. -/
def regradeOperation (flt : RowFilter) (op : Operation) : Option (Option (Row F)) :=
  match matchCheck F op.operationId with
  | none => some none
  | some (run, n, name) =>
      if op.kind ≠ py "check" ∨ op.artifacts.isNone then some none
      else if flt.run.any (· ≠ run) then some none
      else do
        let number ← intDecimal F n
        if flt.submission.any (· ≠ number) then some none
        else (regradeCheck host ledger domain op (.start run number name)).map some

/-- `regrade(project, domain, run, submission, jobs)`. -/
def regrade (flt : RowFilter) : Option (List (Row F)) :=
  (ledger.operations.mapM (regradeOperation host ledger domain flt)).map fun rows =>
    rows.filterMap id

end Evidence

end ReSchema
