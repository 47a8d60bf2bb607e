/-
ReSchema/Candidate.lean

The candidate as files (`checks/__init__.py`).

A worker submits its files in `result.json`, a map from names to texts, or
beside it.  `candidateFiles` joins the two and refuses a name that is given
both ways, so a candidate never has two readings.
-/
import ReSchema.Py.Loads

namespace ReSchema

open Py

/-- `FILES`. -/
def candidateNames : List PyStr := [py "model.c", py "params.json", py "cases.json"]

/-- The files that the candidate carries directly. -/
def directFiles (candidate : Dict Bytes) : Dict Bytes :=
  candidateNames.filterMap fun n => (candidate.lookup n).map fun b => (n, b)

/-- The texts of the bundle, in its order: names of files only, and texts only. -/
def bundleFiles {F : Type} (bundle : Json F) : Option (Dict Bytes) := do
  let d ← bundle.obj?
  if d.all fun e => e.1 ∈ candidateNames then
    d.mapM fun e => e.2.str?.map fun s => (e.1, encode s)
  else none

/-- `candidate_files(candidate)`, or why it is malformed. -/
def candidateFiles (F : Type) [Runtime F] (candidate : Dict Bytes) : Except PyStr (Dict Bytes) :=
  let files := directFiles candidate
  match candidate.lookup (py "result.json") with
  | none => .ok files
  | some raw =>
      match loads (F := F) raw with
      | none => .error (py "result.json is not JSON")
      | some bundle =>
          match bundleFiles bundle with
          | none => .error (py
              "result.json maps file names ['model.c', 'params.json', 'cases.json'] to their text")
          | some texts =>
              if texts.any fun e => e.1 ∈ files.keys then
                .error (py "a file is given both in result.json and beside it")
              else .ok (files.update texts)

end ReSchema
