/-
ReSchema/SlotTasks.lean

The tasks of a slot (`tasks.py`), and what becomes of them.

A slot of the corpus gives a task for each of its functions and then one for the
program.  The worker gets the inputs of a task; the checker and the operations
also get its private files, the binary and `task.json`, and go by what they read
there.  The instructions are a text that nothing here looks into, and what
capstone and the file system give is taken as it comes (`TaskSources`).

`FunctionServed` and `ProgramServed` say what a task is to give to those who read
it; `slotTasks_served` that every task does, for the entries of a manifest.
-/
import ReSchema.AbiTemplate
import ReSchema.CampaignRoundTrip
import ReSchema.Corpus
import ReSchema.HiddenStream
import ReSchema.Py.Sorted

namespace ReSchema

open Py

/-! ### What the tasks are made from -/

/-- An instruction as capstone shows it. -/
structure Decoded where
  address : ℤ
  opStr : PyStr
  insn : AsmInsn

/-- What tasks are made from, beside the manifest. -/
structure TaskSources where
  /-- `Path(binary).read_bytes()`. -/
  readBinary : PyStr → Bytes
  /-- `function_insns(binary, addr, size)`, with `none` for the `ValueError` outside of `.text`. -/
  functionInsns : PyStr → ℤ → ℤ → Option (List Decoded)
  /-- `(SEEDS / f"{seed}.c").read_bytes()`. -/
  seedSource : PyStr → Bytes
  /-- `CANONICALIZER_VERSION`. -/
  version : PyStr
  /-- `task_md(kind, submissions, name)`, for the two kinds. -/
  functionMd : ℕ → PyStr → Bytes
  programMd : ℕ → Bytes

/-- `SUBMISSIONS`. -/
def submissionLimit : ℕ := 8

/-- `GUARD`. -/
def slotGuard : DuplicateGuard := ⟨2, 3, 24, 6, 8⟩

section Tasks

variable (F : Type) [Runtime F] (S : TaskSources)

/-- `_json(value)`. -/
def jsonLine (v : Json F) : Bytes := encode (dumpsSorted indent2 v ++ [ch '\n'])

/-- `family(seed)`. -/
def family (seed : PyStr) (names : List PyStr) : Bytes :=
  jsonLine F (.obj [(py "seed", .str seed),
    (py "source_sha256", .str (Runtime.sha256 F (S.seedSource seed))),
    (py "functions", strs names), (py "canonicalizer", .str S.version)])

/-- The private files of a task. -/
def privateFiles (m : Entry) (task : Dict (Json F)) : FileMap :=
  ⟨⟨[(py "binary", S.readBinary m.binary),
      (py "task.json", jsonLine F (.obj ((py "seed", .str m.seed) :: task)))],
    by simp [Dict.keys]⟩, show ∀ k ∈ [py "binary", py "task.json"], PlainName k by decide⟩

/-- `_task(...)`, with the defaults of its callers. -/
def taskOf (m : Entry) (suffix objective : PyStr) (inputs : FileMap) (task : Dict (Json F))
    (check : PyStr) : TaskSpec where
  id := m.taskId ++ py "::" ++ suffix
  objective := objective
  inputs := inputs
  private_ := privateFiles F S m task
  checks := [check]
  submissions := submissionLimit
  checkBudget := some submissionLimit
  duplicateGuard := some slotGuard
  memory := some ⟨m.seed, [py "family.json"]⟩

/-- `disasm_function(binary, addr, size)`. -/
def disasmText (insns : List Decoded) : PyStr :=
  List.intercalate [ch '\n'] (insns.map fun i =>
    hexText i.address ++ py ":\t" ++ i.insn.mnemonic ++ ch '\t' :: i.opStr)

/-- `{"address": hex(t), "name": addr2name.get(t)}`. -/
def calleeJson (c : PyStr × Option PyStr) : Json F :=
  .obj [(py "address", .str c.1), (py "name", (c.2.map .str).getD .null)]

/-- `function.json`. -/
def functionJson (name : PyStr) (addr : ℤ) (facts : Facts) : Bytes :=
  jsonLine F (.obj [(py "function", .str name), (py "address", .str (hexText addr)),
    (py "signature_guess", .obj [(py "arity_guess", .int facts.arityGuess),
      (py "returns_hint", .bool facts.returnsHint), (py "labeled", .str facts.labeled)]),
    (py "callees", .arr (facts.callees.map (calleeJson F)))])

/-- The functions of an entry with their instructions, for `analyze_function`. -/
def asmFunctions (m : Entry) : Option (Dict AsmFunction) :=
  m.functions.mapM fun e => (S.functionInsns m.binary e.2.1 e.2.2).map fun insns =>
    (e.1, ⟨e.2.1, insns.map Decoded.insn⟩)

/-- `function_task(meta, name)`, with `none` for an exception. -/
def functionTask (m : Entry) (name : PyStr) (addr size : ℤ) : Option TaskSpec := do
  let functions ← asmFunctions S m
  let facts ← (analyzeFunction functions).lookup name
  let insns ← S.functionInsns m.binary addr size
  let names ← corpusFuncs.lookup m.seed
  return taskOf F S m (py "fn::" ++ name)
    (py "Read task.md. Model the function " ++ name ++
      py ": write workspace/model.c and workspace/params.json, then run submit.")
    ⟨⟨[(py "family.json", family F S m.seed names),
        (py "task.md", S.functionMd submissionLimit name),
        (py "function.json", functionJson F name addr facts),
        (py "disasm.txt", encode (disasmText insns)),
        (py "abi_template.c", encode (abiTemplate F name facts))],
      by simp [Dict.keys]⟩, show ∀ k ∈ [py "family.json", py "task.md", py "function.json",
        py "disasm.txt", py "abi_template.c"], PlainName k by decide⟩
    [(py "function", .obj [(py "name", .str name), (py "addr", .int addr), (py "size", .int size)])]
    (py "function-fuzz")

/-- `program.json`. -/
def programJson (m : Entry) : Bytes :=
  jsonLine F (.obj [(py "seed", .str m.seed), (py "compiler", .str m.compiler),
    (py "opt", .str m.opt), (py "stripped", .bool m.stripped),
    (py "functions", .obj (m.functions.map fun e =>
      (e.1, .obj [(py "addr", .int e.2.1), (py "size", .int e.2.2)]))),
    (py "input", .str (if inputMode m.seed = .argv then py "argv" else py "stdin"))])

/-- `program_task(meta)`, with `none` for an exception. -/
def programTask (m : Entry) : Option TaskSpec := do
  let names ← corpusFuncs.lookup m.seed
  return taskOf F S m (py "program")
    (py ("Read task.md. Model the whole program: write workspace/model.c and " ++
      "workspace/cases.json, then run submit."))
    ⟨⟨[(py "family.json", family F S m.seed names), (py "task.md", S.programMd submissionLimit),
        (py "program.json", programJson F m)],
      by simp [Dict.keys]⟩,
      show ∀ k ∈ [py "family.json", py "task.md", py "program.json"], PlainName k by decide⟩
    [] (py "program-replay")

/-- `slot_tasks(meta)`, with `none` for an exception. -/
def slotTasks (m : Entry) : Option (List TaskSpec) := do
  let functions ← m.functions.mapM fun e => functionTask F S m e.1 e.2.1 e.2.2
  let program ← programTask F S m
  return functions ++ [program]

/-! ### The readers of `task.json` -/

/-- `FunctionFuzz.check`: the name, the address and the size of its function. -/
def functionTarget (raw : Bytes) : Option (Json F × Json F × Json F) := do
  let fn ← (← loads raw).get? (py "function")
  return (← fn.get? (py "name"), ← fn.get? (py "addr"), ← fn.get? (py "size"))

/-- `ProgramReplay.check`: the name of the seed. -/
def replaySeed (raw : Bytes) : Option (Json F) := do (← loads raw).get? (py "seed")

/-- `ExperimentFunction.execute`: what it finds under `function`, if that is not `None`. -/
def experimentTarget (raw : Bytes) : Option (Option (Json F)) := do
  let d ← (← loads raw).obj?
  match d.lookup (py "function") with
  | none | some .null => return none
  | some fn => return some fn

/-! ### Tasks and their readers -/

/-- The task of a function, to those who read it. -/
structure FunctionServed (m : Entry) (name : PyStr) (addr size : ℤ) (t : TaskSpec) : Prop where
  id : t.id = m.taskId ++ py "::fn::" ++ name
  checks : t.checks = [py "function-fuzz"]
  memory : t.memory = some ⟨m.seed, [py "family.json"]⟩
  family : t.inputs.entries.lookup (py "family.json") =
    (corpusFuncs.lookup m.seed).map (family F S m.seed)
  binary : t.private_.entries.lookup (py "binary") = some (S.readBinary m.binary)
  target : (t.private_.entries.lookup (py "task.json")).bind (functionTarget F) =
    some (.str name, .int addr, .int size)
  /-- The experiment is on the function that is judged. -/
  experiment : ((t.private_.entries.lookup (py "task.json")).bind (experimentTarget F)).map
    (fun fn => fn.bind fun v => v.get? (py "addr")) = some (some (.int addr))
  /-- Nothing private is shown. -/
  hidden : ∀ k ∈ t.inputs.entries.keys, k ∉ t.private_.entries.keys

/-- The task of a program, to those who read it. -/
structure ProgramServed (m : Entry) (t : TaskSpec) : Prop where
  id : t.id = m.taskId ++ py "::program"
  checks : t.checks = [py "program-replay"]
  memory : t.memory = some ⟨m.seed, [py "family.json"]⟩
  family : t.inputs.entries.lookup (py "family.json") =
    (corpusFuncs.lookup m.seed).map (family F S m.seed)
  binary : t.private_.entries.lookup (py "binary") = some (S.readBinary m.binary)
  seed : (t.private_.entries.lookup (py "task.json")).bind (replaySeed F) = some (.str m.seed)
  /-- The experiment on a function finds none. -/
  experiment : (t.private_.entries.lookup (py "task.json")).bind (experimentTarget F) = some none
  hidden : ∀ k ∈ t.inputs.entries.keys, k ∉ t.private_.entries.keys

/-- What a task is for. -/
inductive TaskOrigin
  | function (m : Entry) (name : PyStr) (addr size : ℤ)
  | program (m : Entry)

/-- The tasks that a slot is to give, in their order. -/
def Entry.origins (m : Entry) : List TaskOrigin :=
  (m.functions.map fun e => .function m e.1 e.2.1 e.2.2) ++ [.program m]

/-- The task is served as it should. -/
def Served : TaskOrigin → TaskSpec → Prop
  | .function m name addr size => FunctionServed F S m name addr size
  | .program m => ProgramServed F S m

end Tasks

/-! ### What the readers find -/

/-- The symbols of an ELF file for 64 bits. -/
def Image.Sized (image : Image) : Prop :=
  ∀ e ∈ image.symbols, e.2.1.natAbs < 2 ^ 64 ∧ e.2.2.natAbs < 2 ^ 64

/-- The entry of a slot of the matrix. -/
structure Entry.Plain (m : Entry) : Prop where
  names : ∃ names, corpusFuncs.lookup m.seed = some names ∧ m.functions.keys.Sublist names
  sizes : ∀ e ∈ m.functions, e.2.1.natAbs < 2 ^ 64 ∧ e.2.2.natAbs < 2 ^ 64
  ascii : IsAscii m.taskId
  /-- The ids of its tasks can be taken apart. -/
  ids : ∃ text, m.taskId = m.seed ++ py "::" ++ text ∧
    (∀ k ∈ m.functions.keys, splitText (py "::") (m.taskId ++ py "::fn::" ++ k) =
      [m.seed, text, py "fn", k]) ∧
    splitText (py "::") (m.taskId ++ py "::program") = [m.seed, text, py "program"]

/-- What the matrix has to do with the ids, for every slot of it. -/
theorem matrix_ids : ∀ e ∈ corpusFuncs, ∀ cc ∈ compilers, ∀ opt ∈ opts, ∀ strip : Bool,
    (Slot.taskId ⟨e.1, cc, opt, strip⟩).all (fun c => 0 < c.val && c.val < 0x80) = true ∧
    (∀ k ∈ e.2, splitText (py "::") (Slot.taskId ⟨e.1, cc, opt, strip⟩ ++ py "::fn::" ++ k) =
      [e.1, Slot.text ⟨e.1, cc, opt, strip⟩, py "fn", k]) ∧
    splitText (py "::") (Slot.taskId ⟨e.1, cc, opt, strip⟩ ++ py "::program") =
      [e.1, Slot.text ⟨e.1, cc, opt, strip⟩, py "program"] := by
  decide +kernel

theorem keys_captured (names : List PyStr) (symbols : Dict (ℤ × ℤ)) :
    (captured names symbols).keys.Sublist names := by
  induction names with
  | nil => exact .slnil
  | cons n names ih =>
      rw [captured, List.filterMap_cons]
      rcases symbols.lookup n with - | v
      · exact ih.cons n
      · exact ih.cons_cons n

theorem mem_captured {names : List PyStr} {symbols : Dict (ℤ × ℤ)} {e : PyStr × ℤ × ℤ}
    (he : e ∈ captured names symbols) : e ∈ symbols := by
  obtain ⟨n, -, hn⟩ := List.mem_filterMap.mp he
  obtain ⟨v, hv, rfl⟩ := Option.map_eq_some_iff.mp hn
  exact Dict.mem_of_lookup_eq_some hv

theorem plain_imageEntry {s : Slot} (hs : s.Known) {image : Image} (himage : image.Sized) :
    (imageEntry s image).Plain := by
  obtain ⟨_, cc, opt, strip⟩ := s
  obtain ⟨⟨seed, names⟩, he, rfl⟩ := List.mem_map.mp hs.seed
  have hnames : corpusFuncs.lookup seed = some names :=
    Dict.lookup_eq_some_of_mem (by decide +kernel) he
  obtain ⟨hascii, hfunctions, hprogram⟩ := matrix_ids _ he cc hs.compiler opt hs.opt strip
  have hsub : (imageEntry ⟨seed, cc, opt, strip⟩ image).functions.keys.Sublist names := by
    rw [imageEntry, hnames]
    exact keys_captured names image.symbols
  refine ⟨⟨names, hnames, hsub⟩, fun e he => himage e (mem_captured he), fun c hc => ?_, _, rfl,
    fun k hk => hfunctions k (hsub.subset hk), hprogram⟩
  simpa using List.all_eq_true.mp hascii c hc

section Readers

variable {F : Type} [Runtime F] [LawfulRuntime F]

/-- The entries of a dictionary that was written as a line. -/
theorem loads_jsonLine {d : Dict (Json F)} (hfits : (Json.obj d).Fits (Runtime.maxDepth F))
    (hclean : (Json.obj d).Clean) : ∃ e : Dict (Json F), loads (jsonLine F (.obj d)) = some (.obj e) ∧
      ∀ k, e.lookup k = (d.lookup k).map Json.sortKeys := by
  obtain ⟨e, he, -, hlookup⟩ := sortKeys_obj hclean.1
  have hread := loads_sorted_line indent2_blank hfits hclean
  rw [he] at hread
  exact ⟨e, hread, hlookup⟩

/-- `task.json` of a function. -/
theorem read_functionLine {seed name : PyStr} {addr size : ℤ} (hseed : IsAscii seed)
    (hname : IsAscii name) (haddr : addr.natAbs < 2 ^ 64) (hsize : size.natAbs < 2 ^ 64) :
    ∃ e fn : Dict (Json F), loads (jsonLine F (.obj [(py "seed", .str seed),
        (py "function", .obj [(py "name", .str name), (py "addr", .int addr),
          (py "size", .int size)])])) = some (.obj e) ∧
      e.lookup (py "function") = some (.obj fn) ∧ fn.lookup (py "name") = some (.str name) ∧
      fn.lookup (py "addr") = some (.int addr) ∧ fn.lookup (py "size") = some (.int size) := by
  set fn₀ : Dict (Json F) :=
    [(py "name", .str name), (py "addr", .int addr), (py "size", .int size)] with hfn₀
  have hdepth := LawfulRuntime.maxDepth_le (F := F)
  have hfits : (Json.obj [(py "seed", .str seed), (py "function", .obj fn₀)] : Json F).Fits
      (Runtime.maxDepth F) :=
    ⟨by omega, trivial, ⟨by omega, trivial, natAbs_lt_digits64 haddr, natAbs_lt_digits64 hsize,
      trivial⟩, trivial⟩
  have hfn : (Json.obj fn₀ : Json F).Clean :=
    ⟨by simp [fn₀, Dict.keys], ⟨joinPairs_py (by decide), joinPairs_of_ascii hname⟩,
      ⟨joinPairs_py (by decide), trivial⟩, ⟨joinPairs_py (by decide), trivial⟩, trivial⟩
  have hclean : (Json.obj [(py "seed", .str seed), (py "function", .obj fn₀)] : Json F).Clean :=
    ⟨by simp [Dict.keys], ⟨joinPairs_py (by decide), joinPairs_of_ascii hseed⟩,
      ⟨joinPairs_py (by decide), hfn⟩, trivial⟩
  obtain ⟨e, hread, hlookup⟩ := loads_jsonLine hfits hclean
  obtain ⟨fn, hsorted, -, hfields⟩ := sortKeys_obj hfn.1
  refine ⟨e, fn, hread, ?_, ?_, ?_, ?_⟩
  · rw [hlookup, ← hsorted]
    simp [List.lookup_cons]
  all_goals
    rw [hfields]
    simp [fn₀, List.lookup_cons, Json.sortKeys]

/-- `task.json` of a program. -/
theorem read_programLine {seed : PyStr} (hseed : IsAscii seed) :
    ∃ e : Dict (Json F), loads (jsonLine F (.obj [(py "seed", .str seed)])) = some (.obj e) ∧
      e.lookup (py "seed") = some (.str seed) ∧ e.lookup (py "function") = none := by
  have hdepth := LawfulRuntime.maxDepth_le (F := F)
  obtain ⟨e, hread, hlookup⟩ := loads_jsonLine (F := F) (d := [(py "seed", .str seed)])
    ⟨by omega, trivial, trivial⟩
    ⟨by simp [Dict.keys], ⟨joinPairs_py (by decide), joinPairs_of_ascii hseed⟩, trivial⟩
  refine ⟨e, hread, ?_, ?_⟩
  · rw [hlookup]
    simp [Json.sortKeys]
  · rw [hlookup]
    simp [List.lookup_cons]

/-! ### The tasks of a slot -/

theorem corpusFuncs_ascii : ∀ e ∈ corpusFuncs, IsAscii e.1 ∧ ∀ name ∈ e.2, IsAscii name := by
  have hall : corpusFuncs.all (fun e => (e.1 :: e.2).all fun s =>
      s.all fun c => 0 < c.val && c.val < 0x80) = true := by
    decide +kernel
  have hascii : ∀ e ∈ corpusFuncs, ∀ s ∈ e.1 :: e.2, IsAscii s := fun e he s hs c hc => by
    have hs' := List.all_eq_true.mp (List.all_eq_true.mp (List.all_eq_true.mp hall e he) s hs) c hc
    simpa using hs'
  exact fun e he => List.forall_mem_cons.mp (hascii e he)

variable {S : TaskSources} {m : Entry} {t : TaskSpec}

theorem Entry.Plain.names_ascii (hm : m.Plain) :
    IsAscii m.seed ∧ ∀ k ∈ m.functions.keys, IsAscii k := by
  obtain ⟨names, hnames, hsub⟩ := hm.names
  have hascii := corpusFuncs_ascii _ (Dict.mem_of_lookup_eq_some hnames)
  exact ⟨hascii.1, fun k hk => hascii.2 k (hsub.subset hk)⟩

omit [LawfulRuntime F] in
theorem lookup_binary (task : Dict (Json F)) :
    (privateFiles F S m task).entries.lookup (py "binary") = some (S.readBinary m.binary) := by
  simp [privateFiles]

omit [LawfulRuntime F] in
theorem lookup_taskJson (task : Dict (Json F)) :
    (privateFiles F S m task).entries.lookup (py "task.json") =
      some (jsonLine F (.obj ((py "seed", .str m.seed) :: task))) := by
  simp [privateFiles, List.lookup_cons]

theorem functionTask_served (hm : m.Plain) {name : PyStr} {addr size : ℤ}
    (he : (name, addr, size) ∈ m.functions) (h : functionTask F S m name addr size = some t) :
    FunctionServed F S m name addr size t := by
  simp only [functionTask, Option.bind_eq_bind, Option.bind_eq_some_iff] at h
  obtain ⟨functions, -, facts, -, insns, -, names, hnames, h⟩ := h
  obtain rfl := Option.some.inj h
  obtain ⟨hseed, hname⟩ := hm.names_ascii
  obtain ⟨haddr, hsize⟩ := hm.sizes _ he
  obtain ⟨e, fn, hread, hfn, hfname, hfaddr, hfsize⟩ := read_functionLine (F := F) hseed
    (hname name (List.mem_map.mpr ⟨_, he, rfl⟩)) haddr hsize
  refine ⟨?_, rfl, rfl, ?_, ?_, ?_, ?_, ?_⟩
  · simp [taskOf, py]
  · simp [taskOf, hnames]
  · exact lookup_binary _
  · rw [taskOf, lookup_taskJson, Option.bind_some, functionTarget, hread]
    simp [Json.get?, hfn, hfname, hfaddr, hfsize]
  · rw [taskOf, lookup_taskJson, Option.bind_some, experimentTarget, hread]
    simp [Json.obj?, hfn, Json.get?, hfaddr]
  · simp [taskOf, privateFiles, Dict.keys]

theorem programTask_served (hm : m.Plain) (h : programTask F S m = some t) :
    ProgramServed F S m t := by
  simp only [programTask, Option.bind_eq_bind, Option.bind_eq_some_iff] at h
  obtain ⟨names, hnames, h⟩ := h
  obtain rfl := Option.some.inj h
  obtain ⟨e, hread, hseed, hnone⟩ := read_programLine (F := F) hm.names_ascii.1
  refine ⟨?_, rfl, rfl, ?_, ?_, ?_, ?_, ?_⟩
  · simp [taskOf, py]
  · simp [taskOf, hnames]
  · exact lookup_binary _
  · rw [taskOf, lookup_taskJson, Option.bind_some, replaySeed, hread]
    simp [Json.get?, hseed]
  · rw [taskOf, lookup_taskJson, Option.bind_some, experimentTarget, hread]
    simp [Json.obj?, hnone]
  · simp [taskOf, privateFiles, Dict.keys]

/-- **Every task of a slot serves its readers**: there is one for each function, in the order of
the manifest, and then the one for the program. -/
theorem slotTasks_served {ts : List TaskSpec} (hm : m.Plain) (h : slotTasks F S m = some ts) :
    List.Forall₂ (Served F S) m.origins ts := by
  simp only [slotTasks, Option.bind_eq_bind, Option.bind_eq_some_iff] at h
  obtain ⟨functions, hfunctions, program, hprogram, h⟩ := h
  obtain rfl := Option.some.inj h
  refine List.rel_append ?_ (.cons (programTask_served hm hprogram) .nil)
  rw [List.forall₂_map_left_iff]
  exact related_imp (mapM_some.mp hfunctions) fun e he t ht => functionTask_served hm he ht

/-! ### The tasks of a campaign -/

/-- The id of the task. -/
def TaskOrigin.id : TaskOrigin → PyStr
  | .function m name _ _ => m.taskId ++ py "::fn::" ++ name
  | .program m => m.taskId ++ py "::program"

omit [LawfulRuntime F] in
theorem Served.id_eq {o : TaskOrigin} (h : Served F S o t) : t.id = o.id := by
  cases o with
  | function m name addr size => exact h.id
  | program m => exact h.id

theorem corpusFuncs_nodup : ∀ e ∈ corpusFuncs, e.2.Nodup := by decide +kernel

theorem nodup_originIds (hm : m.Plain) : (m.origins.map TaskOrigin.id).Nodup := by
  obtain ⟨names, hnames, hsub⟩ := hm.names
  obtain ⟨text, -, hfunction, hprogram⟩ := hm.ids
  have hkeys : m.functions.keys.Nodup :=
    (corpusFuncs_nodup _ (Dict.mem_of_lookup_eq_some hnames)).sublist hsub
  have hids : m.origins.map TaskOrigin.id =
      (m.functions.keys.map fun k => m.taskId ++ py "::fn::" ++ k) ++ [m.taskId ++ py "::program"] := by
    simp [Entry.origins, Dict.keys, Function.comp_def, TaskOrigin.id]
  rw [hids, List.nodup_append']
  refine ⟨hkeys.map fun k l h => List.append_cancel_left h, List.nodup_singleton _, ?_⟩
  rw [List.disjoint_singleton]
  intro hmem
  obtain ⟨k, hk, hid⟩ := List.mem_map.mp hmem
  have hlen := hfunction k hk
  rw [hid, hprogram] at hlen
  simp at hlen

/-- Two entries that share the id of a task are of one slot. -/
theorem taskId_of_originId {m' : Entry} (hm : m.Plain) (hm' : m'.Plain) {o o' : TaskOrigin}
    (ho : o ∈ m.origins) (ho' : o' ∈ m'.origins) (h : o.id = o'.id) : m.taskId = m'.taskId := by
  have hsplit : ∀ {m : Entry}, m.Plain → ∀ o ∈ m.origins, ∃ text tail, m.taskId = m.seed ++
      py "::" ++ text ∧ splitText (py "::") o.id = m.seed :: text :: tail := by
    intro m hm o ho
    obtain ⟨text, hid, hfunction, hprogram⟩ := hm.ids
    rcases List.mem_append.mp ho with ho | ho
    · obtain ⟨e, he, rfl⟩ := List.mem_map.mp ho
      exact ⟨text, _, hid, hfunction e.1 (List.mem_map.mpr ⟨e, he, rfl⟩)⟩
    · obtain rfl := List.mem_singleton.mp ho
      exact ⟨text, _, hid, hprogram⟩
  obtain ⟨text, tail, hid, hs⟩ := hsplit hm o ho
  obtain ⟨text', tail', hid', hs'⟩ := hsplit hm' o' ho'
  rw [h, hs', List.cons.injEq, List.cons.injEq] at hs
  rw [hid, hid', hs.1, hs.2.1]

/-- **The ids of a campaign's tasks differ exactly when its slots do.** -/
theorem nodup_ids_iff {metas : List Entry} (hplain : ∀ m ∈ metas, m.Plain) :
    ((metas.flatMap Entry.origins).map TaskOrigin.id).Nodup ↔
      (metas.map Entry.taskId).Nodup := by
  have hprogram : ∀ m : Entry, m.taskId ++ py "::program" ∈ m.origins.map TaskOrigin.id :=
    fun m => List.mem_map.mpr ⟨.program m, List.mem_append_right _ List.mem_cons_self, rfl⟩
  rw [List.map_flatMap, List.nodup_flatMap, List.Nodup, List.pairwise_map]
  constructor
  · rintro ⟨-, hdisjoint⟩
    refine hdisjoint.imp fun {m m'} hne heq => ?_
    have hmem := hprogram m'
    rw [← heq] at hmem
    exact hne (hprogram m) hmem
  · intro hne
    refine ⟨fun m hm => nodup_originIds (hplain m hm), hne.imp_of_mem fun {m m'} hm hm' hne => ?_⟩
    rintro id hid hid'
    obtain ⟨o, ho, rfl⟩ := List.mem_map.mp hid
    obtain ⟨o', ho', heq⟩ := List.mem_map.mp hid'
    exact hne (taskId_of_originId (hplain m hm) (hplain m' hm') ho ho' heq.symm)

/-! ### Strings in ASCII -/

theorem isAscii_py {s : String}
    (h : (s.toList.all fun c => 0x20 ≤ c.toNat && c.toNat < 0x7f) = true) : IsAscii (py s) :=
  (printable_py h).isAscii

theorem isAscii_append {s t : PyStr} (hs : IsAscii s) (ht : IsAscii t) : IsAscii (s ++ t) :=
  List.forall_mem_append.mpr ⟨hs, ht⟩

omit [LawfulRuntime F] in
/-- What a task needs for its own strings. -/
theorem ascii_taskOf (hm : m.Plain) {suffix objective check : PyStr} {inputs : FileMap}
    {task : Dict (Json F)} (hsuffix : IsAscii suffix) (hobjective : IsAscii objective)
    (hcheck : IsAscii check) (hinputs : ∀ k ∈ inputs.entries.keys, IsAscii k) :
    (taskOf F S m suffix objective inputs task check).Ascii := by
  have hall : ∀ s ∈ (taskOf F S m suffix objective inputs task check).strings, IsAscii s := by
    simp only [TaskSpec.strings, taskOf, privateFiles, Option.toList_some, List.flatMap_singleton,
      List.forall_mem_cons, List.forall_mem_append]
    refine ⟨isAscii_append (isAscii_append hm.ascii (isAscii_py (by decide))) hsuffix, hobjective,
      ⟨⟨⟨hcheck, by simp⟩, hm.names_ascii.1, isAscii_py (by decide), by simp⟩, hinputs⟩, ?_⟩
    simp only [Dict.keys, List.map_cons, List.map_nil, List.forall_mem_cons]
    exact ⟨isAscii_py (by decide), isAscii_py (by decide), by simp⟩
  exact fun s hs c hc => (hall s hs c hc).2

omit [LawfulRuntime F] in
theorem slotTasks_ascii {ts : List TaskSpec} (hm : m.Plain) (h : slotTasks F S m = some ts) :
    ∀ t ∈ ts, t.Ascii := by
  simp only [slotTasks, Option.bind_eq_bind, Option.bind_eq_some_iff] at h
  obtain ⟨functions, hfunctions, program, hprogram, h⟩ := h
  obtain rfl := Option.some.inj h
  refine List.forall_mem_append.mpr ⟨fun t ht => ?_, List.forall_mem_singleton.mpr ?_⟩
  · obtain ⟨e, he, h⟩ := related_left (mapM_some.mp hfunctions) ht
    simp only [functionTask, Option.bind_eq_bind, Option.bind_eq_some_iff] at h
    obtain ⟨fns, -, facts, -, insns, -, names, -, h⟩ := h
    obtain rfl := Option.some.inj h
    have hname := hm.names_ascii.2 e.1 (List.mem_map.mpr ⟨e, he, rfl⟩)
    refine ascii_taskOf hm (isAscii_append (isAscii_py (by decide)) hname)
      (isAscii_append (isAscii_append (isAscii_py (by decide)) hname) (isAscii_py (by decide)))
      (isAscii_py (by decide)) ?_
    simp only [Dict.keys, List.map_cons, List.map_nil, List.forall_mem_cons]
    exact ⟨isAscii_py (by decide), isAscii_py (by decide), isAscii_py (by decide),
      isAscii_py (by decide), isAscii_py (by decide), by simp⟩
  · simp only [programTask, Option.bind_eq_bind, Option.bind_eq_some_iff] at hprogram
    obtain ⟨names, -, h⟩ := hprogram
    obtain rfl := Option.some.inj h
    refine ascii_taskOf hm (isAscii_py (by decide)) (isAscii_py (by decide))
      (isAscii_py (by decide)) ?_
    simp only [Dict.keys, List.map_cons, List.map_nil, List.forall_mem_cons]
    exact ⟨isAscii_py (by decide), isAscii_py (by decide), isAscii_py (by decide), by simp⟩

omit [LawfulRuntime F] in
/-- **When the tasks of a slot can be made**: the seed is one of the corpus, and each function lies
in the code of the binary. -/
theorem slotTasks_isSome : (slotTasks F S m).isSome = true ↔ m.seed ∈ corpusFuncs.keys ∧
    ∀ e ∈ m.functions, (S.functionInsns m.binary e.2.1 e.2.2).isSome = true := by
  constructor
  · intro h
    obtain ⟨ts, hts⟩ := Option.isSome_iff_exists.mp h
    simp only [slotTasks, Option.bind_eq_bind, Option.bind_eq_some_iff] at hts
    obtain ⟨functions, hfunctions, program, hprogram, -⟩ := hts
    simp only [programTask, Option.bind_eq_bind, Option.bind_eq_some_iff] at hprogram
    obtain ⟨names, hnames, -⟩ := hprogram
    refine ⟨List.mem_map.mpr ⟨_, Dict.mem_of_lookup_eq_some hnames, rfl⟩, fun e he => ?_⟩
    obtain ⟨t, -, ht⟩ := related_right (mapM_some.mp hfunctions) he
    simp only [functionTask, Option.bind_eq_bind, Option.bind_eq_some_iff] at ht
    obtain ⟨fns, -, facts, -, insns, hinsns, -⟩ := ht
    rw [hinsns]
    rfl
  · rintro ⟨hseed, hcode⟩
    obtain ⟨names, hnames⟩ := Dict.exists_lookup hseed
    have hasm : (asmFunctions S m).isSome = true :=
      isSome_mapM.mpr fun e he => by rw [Option.isSome_map, hcode e he]
    obtain ⟨functions, hfunctions⟩ := Option.isSome_iff_exists.mp hasm
    -- every function of the entry is analysed under its name
    have hfacts : ∀ e ∈ m.functions, ((analyzeFunction functions).lookup e.1).isSome = true := by
      intro e he
      obtain ⟨f, hf, h⟩ := related_right (mapM_some.mp hfunctions) he
      obtain ⟨insns, -, rfl⟩ := Option.map_eq_some_iff.mp h
      have hmem : e.1 ∈ (analyzeFunction functions).keys :=
        List.mem_map.mpr ⟨_, List.mem_map.mpr ⟨_, hf, rfl⟩, rfl⟩
      obtain ⟨facts, hfacts⟩ := Dict.exists_lookup hmem
      rw [hfacts]
      rfl
    have htasks : (m.functions.mapM fun e => functionTask F S m e.1 e.2.1 e.2.2).isSome = true := by
      refine isSome_mapM.mpr fun e he => ?_
      obtain ⟨facts, hf⟩ := Option.isSome_iff_exists.mp (hfacts e he)
      obtain ⟨insns, hi⟩ := Option.isSome_iff_exists.mp (hcode e he)
      simp [functionTask, hfunctions, hf, hi, hnames]
    obtain ⟨ts, hts⟩ := Option.isSome_iff_exists.mp htasks
    simp [slotTasks, hts, programTask, hnames]

end Readers

end ReSchema
