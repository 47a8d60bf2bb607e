/-
ReSchema/CampaignFiles.lean

The files of a campaign (`write_task` and `write_campaign` of `tasks.py`), and
reading them back.

A task is a directory: `task.toml` and, beside it, the files of its tables
`inputs` and `private`.  A campaign is `campaign.toml` over numbered task
directories.  Both documents are put together line by line, with
`json.dumps` for every string.

The types of the package that runs campaigns appear with the fields the code
sets.  How that package turns a document into them is no part of this
repository; `loadTask` and `loadCampaign` are the plain reading of the tables,
from a disk that holds what was written (`Holds`).

`campaign_round_trip_iff`: what is read is what was written exactly when the
campaign's id and its configs have no code point that JSON writes as a
surrogate.  A task's own strings are ASCII and come back always; its files have
plain names (`PlainName`), as the tasks of a campaign have them.
-/
import ReSchema.Py.Toml

namespace ReSchema

open Py Py.Toml

/-! ### Task specs -/

/-- A `Mapping[str, α]`. -/
structure Mapping (α : Type) where
  entries : Dict α
  nodup : entries.keys.Nodup

/-- A name that is one component of a path.  Under such names files are written side by side; any
other name fails to be written (`a/b`, the empty one, one with a NUL) or may meet another file
(`../inputs/f`). -/
def PlainName (k : PyStr) : Prop :=
  k ≠ [] ∧ k ≠ py "." ∧ k ≠ py ".." ∧ ch '/' ∉ k ∧ (0 : CodePoint) ∉ k

instance : DecidablePred PlainName := fun _ => inferInstanceAs (Decidable (_ ∧ _))

/-- The files of one table of a task, by name.  Each lies in the directory of the table, so its name
is plain. -/
structure FileMap extends Mapping Bytes where
  plain : ∀ k ∈ entries.keys, PlainName k

/-- `DuplicateGuard`, with the fields that `GUARD` sets. -/
structure DuplicateGuard where
  exactRepeats : ℤ
  nearRepeats : ℤ
  nearEditFloor : ℤ
  nearEditPercent : ℤ
  window : ℤ

/-- `dataclasses.asdict(guard)`. -/
def DuplicateGuard.asdict (g : DuplicateGuard) : Dict ℤ :=
  [(py "exact_repeats", g.exactRepeats), (py "near_repeats", g.nearRepeats),
    (py "near_edit_floor", g.nearEditFloor), (py "near_edit_percent", g.nearEditPercent),
    (py "window", g.window)]

/-- `MemorySpec`. -/
structure MemorySpec where
  scope : PyStr
  depends : List PyStr

/-- `TaskSpec`. -/
structure TaskSpec where
  id : PyStr
  objective : PyStr
  inputs : FileMap
  private_ : FileMap
  checks : List PyStr
  submissions : ℤ
  checkBudget : Option ℤ
  duplicateGuard : Option DuplicateGuard
  memory : Option MemorySpec

/-- `CampaignSpec`, each task with its split and each config as the path of its file. -/
structure CampaignSpec where
  id : PyStr
  tasks : List (TaskSpec × PyStr)
  configs : Mapping PyStr

/-! ### Writing -/

/-- `a / b` of two paths. -/
def pathJoin (a b : PyStr) : PyStr := if b.head? = some (ch '/') then b else a ++ ch '/' :: b

section Write

variable (F : Type) [Runtime F]

/-- `_toml(value)`. -/
def toml (v : Json F) : PyStr := dumps plain v

/-- The lines of one of the tables `inputs` and `private`. -/
def fileLines (table : PyStr) (files : FileMap) : List PyStr :=
  (py "[" ++ (table ++ py "]")) :: files.entries.map fun e =>
    toml F (.str e.1) ++ py " = " ++ toml F (.str (table ++ py "/" ++ e.1))

/-- The lines of the guard, if the task has one. -/
def guardLines : Option DuplicateGuard → List PyStr
  | none => []
  | some g => py "[duplicate_guard]" ::
      g.asdict.map fun e => e.1 ++ py " = " ++ toml F (.int e.2)

/-- The lines of the memory spec, if the task has one. -/
def memoryLines : Option MemorySpec → List PyStr
  | none => []
  | some m => [py "[memory]",
      py "scope = " ++ toml F (.str m.scope),
      py "depends = " ++ toml F (.arr (m.depends.map .str))]

/-- The lines of `task.toml`. -/
def taskLines (t : TaskSpec) : List PyStr :=
  [py "id = " ++ toml F (.str t.id),
    py "objective = " ++ toml F (.str t.objective),
    py "checks = " ++ toml F (.arr (t.checks.map .str)),
    py "[budgets]",
    py "submissions = " ++ intText t.submissions] ++
  (t.checkBudget.toList.map fun n => py "checks = " ++ intText n) ++
  guardLines F t.duplicateGuard ++ memoryLines F t.memory ++
  fileLines F (py "inputs") t.inputs ++ fileLines F (py "private") t.private_

/-- The files of one table, each at `out / table / name`; the names are plain, so that none is written
over another one. -/
def tableFiles (out table : PyStr) (files : FileMap) : Dict Bytes :=
  files.entries.map fun e => (pathJoin (pathJoin out table) e.1, e.2)

/-- `write_task(task, out)`: the files it writes, by path. -/
def writeTask (t : TaskSpec) (out : PyStr) : Dict Bytes :=
  tableFiles out (py "inputs") t.inputs ++ tableFiles out (py "private") t.private_ ++
    [(pathJoin out (py "task.toml"), encode (joinLines (taskLines F t)))]

/-- `[A-Za-z0-9_.-]`. -/
def isSlugChar (c : CodePoint) : Bool :=
  (0x41 ≤ c.val && c.val ≤ 0x5a) || (0x61 ≤ c.val && c.val ≤ 0x7a) || isDigit c ||
    c == ch '_' || c == ch '.' || c == ch '-'

/-- `re.sub(r"[^A-Za-z0-9_.-]", "_", s)`. -/
def slug (s : PyStr) : PyStr := s.map fun c => if isSlugChar c then c else ch '_'

/-- `f"{i:03d}"`. -/
def index3 (i : ℕ) : PyStr := List.replicate (3 - (natText i).length) (ch '0') ++ natText i

/-- The directory of task number `i`, relative to the campaign's. -/
def taskDir (i : ℕ) (id : PyStr) : PyStr :=
  pathJoin (py "tasks") (index3 i ++ ch '-' :: slug id)

/-- The lines of `campaign.toml`. -/
def campaignLines (id : PyStr) (specs : List TaskSpec) (configs : Mapping PyStr)
    (split : PyStr) : List PyStr :=
  [py "id = " ++ toml F (.str id), py "[configs]"] ++
  (configs.entries.map fun e => toml F (.str e.1) ++ py " = " ++ toml F (.str e.2)) ++
  specs.zipIdx.flatMap fun p =>
    [py "[[tasks]]",
      py "path = " ++ toml F (.str (pathJoin (taskDir p.2 p.1.id) (py "task.toml"))),
      py "split = " ++ toml F (.str split)]

/-- `write_campaign(campaign_id, specs, configs, out, split)`: the files it writes, by their
paths relative to `out`. -/
def writeCampaign (id : PyStr) (specs : List TaskSpec) (configs : Mapping PyStr)
    (split : PyStr) : Dict Bytes :=
  (specs.zipIdx.flatMap fun p => writeTask F p.1 (taskDir p.2 p.1.id)) ++
    [(py "campaign.toml", encode (joinLines (campaignLines F id specs configs split)))]

end Write

/-! ### Reading -/

/-- The content of a file, if there is one. -/
abbrev Disk := PyStr → Option Bytes

/-- The disk has the files as they were written. -/
def Holds (disk : Disk) (files : Dict Bytes) : Prop := ∀ f ∈ files, disk f.1 = some f.2

def asStr : Value → Option PyStr
  | .str s => some s
  | _ => none

def asInt : Value → Option ℤ
  | .int i => some i
  | _ => none

def asStrs : Value → Option (List PyStr)
  | .arr vs => vs.mapM asStr
  | _ => none

/-- A value of the document. -/
def docValue (doc : Document) (k : PyStr) : Option Value :=
  match doc.lookup k with
  | some (.value v) => some v
  | _ => none

/-- A table of the document. -/
def docTable (doc : Document) (k : PyStr) : Option Table :=
  match doc.lookup k with
  | some (.table t) => some t
  | _ => none

/-- A part of a document that may be absent, but is well formed where it is there. -/
def optional {α β : Type} (f : α → Option β) : Option α → Option (Option β)
  | none => some none
  | some a => (f a).map some

/-- A mapping of entries, unless a key repeats. -/
def Mapping.ofEntries {α : Type} (d : Dict α) : Option (Mapping α) :=
  if h : d.keys.Nodup then some ⟨d, h⟩ else none

def FileMap.ofEntries (d : Dict Bytes) : Option FileMap :=
  if h : d.keys.Nodup ∧ ∀ k ∈ d.keys, PlainName k then some ⟨⟨d, h.1⟩, h.2⟩ else none

def readGuard (t : Table) : Option DuplicateGuard := do
  let exactRepeats ← (t.lookup (py "exact_repeats")).bind asInt
  let nearRepeats ← (t.lookup (py "near_repeats")).bind asInt
  let nearEditFloor ← (t.lookup (py "near_edit_floor")).bind asInt
  let nearEditPercent ← (t.lookup (py "near_edit_percent")).bind asInt
  let window ← (t.lookup (py "window")).bind asInt
  some ⟨exactRepeats, nearRepeats, nearEditFloor, nearEditPercent, window⟩

def readMemory (t : Table) : Option MemorySpec := do
  let scope ← (t.lookup (py "scope")).bind asStr
  let depends ← (t.lookup (py "depends")).bind asStrs
  some ⟨scope, depends⟩

/-- The files of a table, from their paths relative to `dir`. -/
def readFiles (disk : Disk) (dir : PyStr) (t : Table) : Option FileMap := do
  let files ← t.mapM fun e => do
    let path ← asStr e.2
    let data ← disk (pathJoin dir path)
    some (e.1, data)
  FileMap.ofEntries files

/-- The task of a document in `dir`. -/
def readTask (disk : Disk) (dir : PyStr) (doc : Document) : Option TaskSpec := do
  let id ← (docValue doc (py "id")).bind asStr
  let objective ← (docValue doc (py "objective")).bind asStr
  let checks ← (docValue doc (py "checks")).bind asStrs
  let budgets ← docTable doc (py "budgets")
  let submissions ← (budgets.lookup (py "submissions")).bind asInt
  let checkBudget ← optional asInt (budgets.lookup (py "checks"))
  let duplicateGuard ← optional readGuard (docTable doc (py "duplicate_guard"))
  let memory ← optional readMemory (docTable doc (py "memory"))
  let inputs ← (docTable doc (py "inputs")).bind (readFiles disk dir)
  let private_ ← (docTable doc (py "private")).bind (readFiles disk dir)
  some ⟨id, objective, inputs, private_, checks, submissions, checkBudget, duplicateGuard, memory⟩

/-- The directory of a path. -/
def parent (path : PyStr) : PyStr := ((path.reverse.dropWhile (· ≠ ch '/')).drop 1).reverse

/-- The task that `task.toml` at `path` describes. -/
def loadTask (disk : Disk) (path : PyStr) : Option TaskSpec :=
  ((disk path).bind Toml.loads).bind (readTask disk (parent path))

/-- The elements of an array of tables, which is left out where it has none. -/
def docTables (doc : Document) (k : PyStr) : Option (List Table) :=
  match doc.lookup k with
  | none => some []
  | some (.tables ts) => some ts
  | _ => none

/-- The campaign of a document, with its tasks. -/
def readCampaign (disk : Disk) (doc : Document) : Option CampaignSpec := do
  let id ← (docValue doc (py "id")).bind asStr
  let configs ← docTable doc (py "configs")
  let configs ← configs.mapM fun e => do
    let path ← asStr e.2
    some (e.1, path)
  let configs ← Mapping.ofEntries configs
  let tables ← docTables doc (py "tasks")
  let tasks ← tables.mapM fun t => do
    let path ← (t.lookup (py "path")).bind asStr
    let task ← loadTask disk path
    let split ← (t.lookup (py "split")).bind asStr
    some (task, split)
  some ⟨id, tasks, configs⟩

/-- The campaign whose files lie on the disk. -/
def loadCampaign (disk : Disk) : Option CampaignSpec :=
  ((disk (py "campaign.toml")).bind Toml.loads).bind (readCampaign disk)

end ReSchema
