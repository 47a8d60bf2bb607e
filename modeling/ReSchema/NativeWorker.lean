/-
ReSchema/NativeWorker.lean

The worker inside the job (`driver/native_worker.py`).

It reads the job from its input, builds the candidate, and calls it once for
each case, in a fork of its own.  What the candidate does is a `Model`: it
answers the `k`-th call as it likes, with a crash or with what it leaves in
`eax` and behind its pointers.  The child writes its answer as JSON into a pipe
and the parent reads it back, at most a mebibyte of it.

Whether the candidate can be built and has the symbol is a parameter.
-/
import ReSchema.FunctionGate

namespace ReSchema

open Py

/-! ### The candidate -/

/-- What the candidate receives for one parameter. -/
inductive NativeArg
  | int (i : BitVec 32)
  | string (b : Bytes)
  | cells (xs : List (BitVec 32))

/-- How a call of the candidate ended in its fork: killed by a signal, after the deadline,
without output, or with a result.  The status of a child has seven bits for the signal. -/
inductive NativeOutcome
  | signalled (n : Fin 128)
  | hung
  | exited
  | returned (final : Final)

/-- The candidate, by the number of the call. -/
abbrev Model := ℕ → List NativeArg → NativeOutcome

/-- The build: a stage where the candidate does not compile, link or define the function. -/
abbrev Build (F : Type) := PyStr → PyStr → Option (Dict (Json F))

section Worker

variable {F : Type} [Runtime F]

/-! ### One case -/

/-- A case as the worker reads it: the strings decoded, the rest as it came. -/
abbrev WorkerCase (F : Type) := Dict (MemItem F)

/-- The comprehension over the parameters, with `none` for an exception. -/
def readCase (params : List (RawParam F)) (c : Json F) : Option (WorkerCase F) :=
  params.mapM fun p => do
    let name ← p.name.str?
    let v ← c.get? name
    let item ← (match p.kind with
      | .cstring => (v.str?.bind fromHex).map .bytes
      | _ => some (.json v))
    return (name, item)

/-- `ctypes`: numbers are taken modulo 2^32.  An exception of the child is `none`. -/
def nativeArg (kind : Kind) (item : MemItem F) : Option NativeArg :=
  match kind, item with
  | .i32, .json (.int i) => some (.int (BitVec.ofInt 32 i))
  | .cstring, .bytes b => some (.string b)
  | .bufferI32, .json (.arr xs) => (xs.mapM Json.int?).map fun is => .cells (is.map (BitVec.ofInt 32))
  | _, _ => none

/-- What the worker reports for one parameter. -/
def watchedItem (final : Final) (name : PyStr) : NativeArg → Option (Json F)
  | .int _ => none
  | .string b => some (.str (hex ((List.range b.length).map (final.chars name))))
  | .cells xs =>
      some (cellsJson ((List.range xs.length).map fun i => (final.cells name i).toInt))

/-- `_call(...)` after the candidate returned: its result and the memory behind each pointer. -/
def callOutput (args : List (PyStr × NativeArg)) (final : Final) : Json F :=
  .obj [(py "ret", .int final.ret.toInt),
    (py "mem", .obj (args.filterMap fun a => (watchedItem final a.1 a.2).map fun v => (a.1, v)))]

/-- The report of a crash. -/
def crashReport (crash : Dict (Json F)) : Json F := .obj [(py "crash", .obj crash)]

/-- What the parent reads at once. -/
def pipeRead : ℕ := 2 ^ 20

/-- What the parent makes of the output of the child. -/
def readChild (data : Bytes) : Json F :=
  if data = [] then crashReport [(py "error", .str (py "no output"))]
  else match loads (data.take pipeRead) with
    | some v => v
    | none => crashReport [(py "error",
        .str (py "unparseable child output: " ++ reprBytes ((data.take pipeRead).take 100)))]

/-- `_run_case(...)` as the `k`-th call. -/
def runNative (model : Model) (params : List (RawParam F)) (k : ℕ) (case : WorkerCase F) :
    Json F :=
  match (params.zip case).mapM fun pe => (nativeArg pe.1.kind pe.2.2).map fun a => (pe.2.1, a) with
  | none => readChild []
  | some args =>
      match model k (args.map Prod.snd) with
      | .signalled n => crashReport [(py "signal", .int n.val)]
      | .hung => crashReport [(py "timeout", .bool true)]
      | .exited => readChild []
      | .returned final => readChild (encode (dumps plain (callOutput (F := F) args final)))

/-! ### The round -/

/-- The loop over the cases, up to the first crash. -/
def runNatives (model : Model) (params : List (RawParam F)) :
    ℕ → List (WorkerCase F) → Option (List (Json F))
  | _, [] => some []
  | k, c :: cs => do
      let r := runNative model params k c
      if ← contains (py "crash") r then
        return [r]
      let rs ← runNatives model params (k + 1) cs
      return r :: rs

/-- `_validate(job)`, with `none` for an exception. -/
def workerValidate (build : Build F) (model : Model) (job : Dict (Json F)) :
    Option (Dict (Json F)) := do
  let ds ← (← (← job.lookup (py "params")).arr?).mapM Json.obj?
  let params ← (ds.mapM fromJson).toOption
  let fname ← (← job.lookup (py "fname")).str?
  let source ← (← job.lookup (py "c_source")).str?
  match build fname source with
  | some stage => return stage
  | none =>
      let cases ← (← (← job.lookup (py "cases")).arr?).mapM (readCase params)
      let results ← runNatives model params 0 cases
      return [(py "ok", .bool true), (py "results", .arr results)]

/-- `main()` in the mode of the function checker: the output for an input. -/
def workerMain (build : Build F) (model : Model) (stdin : Bytes) : Option Bytes := do
  let job ← (← loads (F := F) stdin).obj?
  if pyEq (.str (py "validate")) (← job.lookup (py "mode")) then
    let out ← workerValidate build model job
    return encode (dumps plain (.obj out))
  else none

end Worker

end ReSchema
