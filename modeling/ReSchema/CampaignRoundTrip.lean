/-
ReSchema/CampaignRoundTrip.lean

The documents that `write_task` and `write_campaign` put together, read back.

Each document is a list of statements (`taskStatements`, `campaignStatements`).
Their texts are the lines the code writes and their lines are those of a
document with a root and sections, so `parse_statements` and
`sections_linesOf` leave two things to show: that no name repeats, and that
the readers find in the sections what the writers put there.
-/
import ReSchema.CampaignFiles
import ReSchema.Py.Interpreter

namespace ReSchema

open Py Py.Toml

/-! ### Statements -/

/-- A key that the source writes. -/
def bareKey (s : String) (h : py s ≠ [] ∧ (py s).all isBare = true) : BareKey := ⟨py s, h.1, h.2⟩

def fileStatements (table : BareKey) (files : FileMap) : List Statement :=
  .table table :: files.entries.map fun e => .entry e.1 (.str (table.text ++ py "/" ++ e.1))

def guardStatements (g : DuplicateGuard) : List Statement :=
  [.table (bareKey "duplicate_guard" (by decide)),
    .field (bareKey "exact_repeats" (by decide)) (.int g.exactRepeats),
    .field (bareKey "near_repeats" (by decide)) (.int g.nearRepeats),
    .field (bareKey "near_edit_floor" (by decide)) (.int g.nearEditFloor),
    .field (bareKey "near_edit_percent" (by decide)) (.int g.nearEditPercent),
    .field (bareKey "window" (by decide)) (.int g.window)]

def memoryStatements (m : MemorySpec) : List Statement :=
  [.table (bareKey "memory" (by decide)),
    .field (bareKey "scope" (by decide)) (.str m.scope),
    .field (bareKey "depends" (by decide)) (.strs m.depends)]

/-- The statements of `task.toml`. -/
def taskStatements (t : TaskSpec) : List Statement :=
  [Statement.field (bareKey "id" (by decide)) (.str t.id),
    Statement.field (bareKey "objective" (by decide)) (.str t.objective),
    Statement.field (bareKey "checks" (by decide)) (.strs t.checks),
    Statement.table (bareKey "budgets" (by decide)),
    Statement.field (bareKey "submissions" (by decide)) (.int t.submissions)] ++
  (t.checkBudget.toList.map fun n => Statement.field (bareKey "checks" (by decide)) (.int n)) ++
  t.duplicateGuard.toList.flatMap guardStatements ++
  t.memory.toList.flatMap memoryStatements ++
  fileStatements (bareKey "inputs" (by decide)) t.inputs ++
  fileStatements (bareKey "private" (by decide)) t.private_

/-- The statements for task number `p.2`. -/
def elementStatements (split : PyStr) (p : TaskSpec × ℕ) : List Statement :=
  [.element (bareKey "tasks" (by decide)),
    .field (bareKey "path" (by decide)) (.str (pathJoin (taskDir p.2 p.1.id) (py "task.toml"))),
    .field (bareKey "split" (by decide)) (.str split)]

/-- The statements of `campaign.toml`. -/
def campaignStatements (id : PyStr) (specs : List TaskSpec) (configs : Mapping PyStr)
    (split : PyStr) : List Statement :=
  [Statement.field (bareKey "id" (by decide)) (.str id),
    Statement.table (bareKey "configs" (by decide))] ++
  (configs.entries.map fun e => Statement.entry e.1 (.str e.2)) ++
  specs.zipIdx.flatMap (elementStatements split)

section Text

variable {F : Type} [Runtime F]

theorem toml_strs (ss : List PyStr) : toml F (.arr (ss.map .str)) = (Datum.strs ss).text := by
  have hitems : ∀ ts : List PyStr, renderElems plain 1 (ts.map (Json.str (F := F))) =
      ts.flatMap fun t => py ", " ++ quote t := by
    intro ts
    induction ts with
    | nil => rfl
    | cons t ts ih =>
        rw [List.map_cons, renderElems, ih]
        rfl
  rcases ss with - | ⟨s, ss⟩
  · rfl
  · rw [List.map_cons, toml, dumps, render, hitems]
    show ch '[' :: (quote s ++ _ ++ [] ++ [ch ']']) = _
    rw [List.append_nil]
    rfl

theorem fileLines_eq (table : BareKey) (files : FileMap) :
    fileLines F table.text files = (fileStatements table files).map Statement.text := by
  rw [fileLines, fileStatements, List.map_cons, List.map_map]
  rfl

theorem guardLines_eq (g : Option DuplicateGuard) :
    guardLines F g = (g.toList.flatMap guardStatements).map Statement.text := by
  rcases g with - | g <;> rfl

theorem memoryLines_eq (m : Option MemorySpec) :
    memoryLines F m = (m.toList.flatMap memoryStatements).map Statement.text := by
  rcases m with - | m
  · rfl
  · rw [memoryLines, toml_strs]
    rfl

theorem taskLines_eq (t : TaskSpec) :
    taskLines F t = (taskStatements t).map Statement.text := by
  have hinputs := fileLines_eq (F := F) (bareKey "inputs" (by decide)) t.inputs
  have hprivate := fileLines_eq (F := F) (bareKey "private" (by decide)) t.private_
  simp only [taskLines, taskStatements, List.map_append, ← hinputs, ← hprivate, toml_strs,
    guardLines_eq, memoryLines_eq, List.map_map]
  rfl

theorem campaignLines_eq (id : PyStr) (specs : List TaskSpec) (configs : Mapping PyStr)
    (split : PyStr) : campaignLines F id specs configs split =
      (campaignStatements id specs configs split).map Statement.text := by
  simp only [campaignLines, campaignStatements, List.map_append, List.map_map, List.map_flatMap]
  rfl

end Text

/-! ### The sections of a task -/

/-- The values before the first table. -/
def taskRoot (t : TaskSpec) : Table :=
  [(py "id", .str t.id), (py "objective", .str t.objective),
    (py "checks", .arr (t.checks.map .str))]

def budgetTable (t : TaskSpec) : Table :=
  (py "submissions", .int t.submissions) ::
    t.checkBudget.toList.map fun n => (py "checks", .int n)

def guardTable (g : DuplicateGuard) : Table := g.asdict.map fun e => (e.1, .int e.2)

def memoryTable (m : MemorySpec) : Table :=
  [(py "scope", .str m.scope), (py "depends", .arr (m.depends.map .str))]

def fileTable (table : PyStr) (files : FileMap) : Table :=
  files.entries.map fun e => (e.1, .str (table ++ py "/" ++ e.1))

/-- The tables of `task.toml`, in order. -/
def taskTables (t : TaskSpec) : List (PyStr × Table) :=
  (py "budgets", budgetTable t) ::
    ((t.duplicateGuard.toList.map fun g => (py "duplicate_guard", guardTable g)) ++
      (t.memory.toList.map fun m => (py "memory", memoryTable m)) ++
      [(py "inputs", fileTable (py "inputs") t.inputs),
        (py "private", fileTable (py "private") t.private_)])

theorem taskStatements_lines (t : TaskSpec) : (taskStatements t).map Statement.line =
    linesOf (taskRoot t) ((taskTables t).map fun s => (.table s.1, s.2)) := by
  obtain ⟨id, objective, inputs, private_, checks, submissions, budget, guard, memory⟩ := t
  rcases budget with - | n <;> rcases guard with - | g <;> rcases memory with - | m <;>
    simp [taskStatements, linesOf, taskTables, taskRoot, fileStatements, fileTable,
      guardStatements, guardTable, memoryStatements, memoryTable, budgetTable, Statement.line,
      bareKey, Datum.value, DuplicateGuard.asdict, Function.comp_def]

/-- The document of a task. -/
def taskDocument (t : TaskSpec) : Document :=
  ((taskRoot t).map fun e => (e.1, .value e.2)) ++ (taskTables t).map fun s => (s.1, .table s.2)

theorem keys_fileTable (table : PyStr) (files : FileMap) :
    (fileTable table files).keys = files.entries.keys := by
  simp [fileTable, Dict.keys, Function.comp_def]

/-- No name stands twice in a table of a task. -/
theorem nodup_taskTables (t : TaskSpec) : ∀ s ∈ taskTables t, s.2.keys.Nodup := by
  intro s hs
  simp only [taskTables, List.mem_cons, List.mem_append, List.mem_map, Option.mem_toList,
    List.not_mem_nil, or_false] at hs
  rcases hs with rfl | (⟨g, -, rfl⟩ | ⟨m, -, rfl⟩) | rfl | rfl
  · rcases hb : t.checkBudget with - | n <;> simp [budgetTable, hb, Dict.keys]
  · simp [guardTable, DuplicateGuard.asdict, Dict.keys]
  · simp [memoryTable, Dict.keys]
  · rw [keys_fileTable]
    exact t.inputs.nodup
  · rw [keys_fileTable]
    exact t.private_.nodup

/-- No name of a task's document stands for two things. -/
theorem nodup_taskDocument (t : TaskSpec) :
    ((taskRoot t).keys ++ (taskTables t).map Prod.fst).Nodup := by
  rcases hg : t.duplicateGuard with - | g <;> rcases hm : t.memory with - | m <;>
    simp [taskRoot, taskTables, hg, hm, Dict.keys]

theorem assemble_task (t : TaskSpec) :
    assemble (taskRoot t) ((taskTables t).map fun s => (.table s.1, s.2)) =
      some (taskDocument t) := by
  have hroot : (taskRoot t).keys.Nodup := (List.nodup_append.mp (nodup_taskDocument t)).1
  have hkeys : Dict.keys ((taskRoot t).map fun e => (e.1, Node.value e.2)) = (taskRoot t).keys := by
    simp [Dict.keys, Function.comp_def]
  rw [assemble, if_pos ⟨hroot, List.forall_mem_map.mpr (nodup_taskTables t)⟩, foldlM_tables]
  · rfl
  · rw [hkeys]
    exact nodup_taskDocument t

/-! ### ASCII fields -/

/-- The strings of a task: its fields and the names of its files. -/
def TaskSpec.strings (t : TaskSpec) : List PyStr :=
  t.id :: t.objective :: (t.checks ++ (t.memory.toList.flatMap fun m => m.scope :: m.depends) ++
    t.inputs.entries.keys ++ t.private_.entries.keys)

/-- All fields are ASCII. -/
def TaskSpec.Ascii (t : TaskSpec) : Prop := ∀ s ∈ t.strings, ∀ c ∈ s, c.val < 0x80

instance (t : TaskSpec) : Decidable t.Ascii :=
  decidable_of_iff (t.strings.all fun s => s.all fun c => c.val < 0x80) (by
    simp only [List.all_eq_true, decide_eq_true_iff, TaskSpec.Ascii])

theorem bmp_py {s : String} (h : (s.toList.all fun c => c.toNat < 0x80) = true) : Bmp (py s) := by
  apply bmp_of_ascii
  intro c hc
  obtain ⟨d, hd, rfl⟩ := List.mem_map.mp hc
  simpa using List.all_eq_true.mp h d hd

theorem bmp_fileStatements {table : BareKey} (htable : Bmp table.text) {files : FileMap}
    (h : ∀ k ∈ files.entries.keys, Bmp k) :
    ∀ st ∈ fileStatements table files, ∀ s ∈ st.strings, Bmp s := by
  refine List.forall_mem_cons.mpr ⟨fun s hs => absurd hs List.not_mem_nil, ?_⟩
  refine List.forall_mem_map.mpr fun e he => ?_
  have hname := h e.1 (List.mem_map_of_mem he)
  refine List.forall_mem_cons.mpr ⟨hname, List.forall_mem_singleton.mpr ?_⟩
  exact bmp_append.mpr ⟨bmp_append.mpr ⟨htable, bmp_py rfl⟩, hname⟩

theorem bmp_taskStatements {t : TaskSpec} (h : t.Ascii) :
    ∀ st ∈ taskStatements t, ∀ s ∈ st.strings, Bmp s := by
  have hstr : ∀ s ∈ t.strings, Bmp s := fun s hs => bmp_of_ascii (h s hs)
  simp only [TaskSpec.strings, List.forall_mem_cons, List.forall_mem_append] at hstr
  obtain ⟨hid, hobjective, ⟨⟨hchecks, hmemory⟩, hinputs⟩, hprivate⟩ := hstr
  have hnone : ∀ s ∈ ([] : List PyStr), Bmp s := fun s hs => absurd hs List.not_mem_nil
  simp only [taskStatements, List.forall_mem_append]
  refine ⟨⟨⟨⟨⟨?root, ?budget⟩, ?guard⟩, ?memory⟩, ?inputs⟩, ?privates⟩
  case root =>
    simp only [List.forall_mem_cons]
    exact ⟨List.forall_mem_singleton.mpr hid, List.forall_mem_singleton.mpr hobjective, hchecks,
      hnone, hnone, fun _ h => absurd h List.not_mem_nil⟩
  case budget => exact List.forall_mem_map.mpr fun _ _ => hnone
  case guard =>
    rcases t.duplicateGuard with - | g
    · exact fun _ h => absurd h List.not_mem_nil
    · simp [guardStatements, Statement.strings, Datum.strings]
  case memory =>
    rcases hm : t.memory with - | m
    · exact fun _ h => absurd h List.not_mem_nil
    · simp only [hm, Option.toList_some, List.flatMap_cons, List.flatMap_nil, List.append_nil,
        List.forall_mem_cons] at hmemory
      simp only [Option.toList_some, List.flatMap_cons, List.flatMap_nil, List.append_nil,
        memoryStatements, List.forall_mem_cons]
      exact ⟨hnone, List.forall_mem_singleton.mpr hmemory.1, hmemory.2,
        fun _ h => absurd h List.not_mem_nil⟩
  case inputs => exact bmp_fileStatements (bmp_py rfl) hinputs
  case privates => exact bmp_fileStatements (bmp_py rfl) hprivate

/-- A task in ASCII is a TOML document, and its names stand for what the task has there. -/
theorem parse_task {F : Type} [Runtime F] {t : TaskSpec} (h : t.Ascii) :
    parse (joinLines (taskLines F t)) = some (taskDocument t) := by
  rw [taskLines_eq, parse_statements (by simp [taskStatements]), if_pos (bmp_taskStatements h),
    taskStatements_lines, sections_linesOf]
  exact assemble_task t

/-! ### Reading a task -/

theorem asStrs_strs (ss : List PyStr) : asStrs (.arr (ss.map .str)) = some ss := by
  rw [asStrs, mapM_some, List.forall₂_map_left_iff, List.forall₂_same]
  exact fun _ _ => rfl

theorem readGuard_guardTable (g : DuplicateGuard) : readGuard (guardTable g) = some g := by
  obtain ⟨a, b, c, d, e⟩ := g
  simp [readGuard, guardTable, DuplicateGuard.asdict, List.lookup_cons, asInt]

theorem readMemory_memoryTable (m : MemorySpec) : readMemory (memoryTable m) = some m := by
  simp [readMemory, memoryTable, List.lookup_cons, asStr, asStrs_strs]

theorem FileMap.ofEntries_entries (files : FileMap) :
    FileMap.ofEntries files.entries = some files :=
  dif_pos ⟨files.nodup, files.plain⟩

theorem PlainName.head?_ne {k : PyStr} (h : PlainName k) : k.head? ≠ some (ch '/') :=
  fun h' => h.2.2.2.1 (List.mem_of_mem_head? h')

theorem pathJoin_relative {b : PyStr} (h : b.head? ≠ some (ch '/')) (a : PyStr) :
    pathJoin a b = a ++ ch '/' :: b := if_neg h

/-- A file lies where its entry in the document says. -/
theorem pathJoin_table {table name : PyStr} (hne : table ≠ []) (ht : table.head? ≠ some (ch '/'))
    (hn : name.head? ≠ some (ch '/')) (dir : PyStr) :
    pathJoin dir (table ++ py "/" ++ name) = pathJoin (pathJoin dir table) name := by
  have hhead : (table ++ py "/" ++ name).head? ≠ some (ch '/') := by
    rw [List.append_assoc, List.head?_append_of_ne_nil _ hne]
    exact ht
  rw [pathJoin_relative hhead, pathJoin_relative ht, pathJoin_relative hn, List.append_assoc,
    List.append_assoc]
  rfl

/-- What a table of files names is what was written beside the document. -/
theorem readFiles_fileTable {disk : Disk} {dir table : PyStr} {files : FileMap}
    (hne : table ≠ []) (htable : table.head? ≠ some (ch '/'))
    (h : Holds disk (tableFiles dir table files)) :
    readFiles disk dir (fileTable table files) = some files := by
  have hfiles : (fileTable table files).mapM (fun e => do
      let path ← asStr e.2
      let data ← disk (pathJoin dir path)
      some (e.1, data)) = some files.entries := by
    rw [mapM_some, fileTable, List.forall₂_map_left_iff, List.forall₂_same]
    intro e he
    have hrel := (files.plain e.1 (List.mem_map_of_mem he)).head?_ne
    have hdata := h _ (List.mem_map_of_mem he)
    show (disk (pathJoin dir (table ++ py "/" ++ e.1))).bind _ = _
    rw [pathJoin_table hne htable hrel, hdata]
    rfl
  rw [readFiles, hfiles]
  exact FileMap.ofEntries_entries files

/-- The readers find in the document what the task has. -/
theorem readTask_taskDocument {disk : Disk} {dir : PyStr} {t : TaskSpec}
    (hinputs : Holds disk (tableFiles dir (py "inputs") t.inputs))
    (hprivate : Holds disk (tableFiles dir (py "private") t.private_)) :
    readTask disk dir (taskDocument t) = some t := by
  obtain ⟨id, objective, inputs, private_, checks, submissions, budget, guard, memory⟩ := t
  have hi := readFiles_fileTable (by decide) (by decide) hinputs
  have hp := readFiles_fileTable (by decide) (by decide) hprivate
  rcases budget with - | n <;> rcases guard with - | g <;> rcases memory with - | m <;>
    simp [readTask, taskDocument, taskRoot, taskTables, docValue, docTable, List.lookup_cons,
      asStr, asInt, asStrs_strs, budgetTable, optional, readGuard_guardTable,
      readMemory_memoryTable, hi, hp]

/-! ### A task on the disk -/

theorem parent_pathJoin (dir : PyStr) {name : PyStr} (h : ch '/' ∉ name) :
    parent (pathJoin dir name) = dir := by
  have hhead : name.head? ≠ some (ch '/') := fun h' => h (List.mem_of_mem_head? h')
  have hrev : ∀ c ∈ name.reverse, (decide (c ≠ ch '/')) = true := by
    intro c hc
    rw [decide_eq_true_iff]
    rintro rfl
    exact h (List.mem_reverse.mp hc)
  rw [pathJoin_relative hhead, parent, List.reverse_append, List.reverse_cons,
    List.append_assoc, List.dropWhile_append_of_pos hrev]
  simp

/-- A task that was written is read back. -/
theorem loadTask_writeTask {F : Type} [Runtime F] {disk : Disk} {dir : PyStr} {t : TaskSpec}
    (hdisk : Holds disk (writeTask F t dir)) (h : t.Ascii) :
    loadTask disk (pathJoin dir (py "task.toml")) = some t := by
  obtain ⟨hfiles, htoml⟩ := List.forall_mem_append.mp hdisk
  obtain ⟨hinputs, hprivate⟩ := List.forall_mem_append.mp hfiles
  have hread := List.forall_mem_singleton.mp htoml
  have hparse := parse_task (F := F) h
  rw [taskLines_eq] at hread hparse
  rw [loadTask, hread, Option.bind_some, loads_statements, hparse, Option.bind_some,
    parent_pathJoin dir (by decide)]
  exact readTask_taskDocument hinputs hprivate

/-! ### No file is written twice -/

/-- The files of a table lie under the table's name. -/
theorem keys_tableFiles {dir table : PyStr} {files : FileMap}
    (htable : table.head? ≠ some (ch '/')) :
    (tableFiles dir table files).keys =
      files.entries.keys.map fun k => dir ++ ch '/' :: (table ++ ch '/' :: k) := by
  simp only [tableFiles, Dict.keys, List.map_map]
  refine List.map_congr_left fun e he => ?_
  have hrel := (files.plain e.1 (List.mem_map_of_mem he)).head?_ne
  simp [pathJoin_relative htable, pathJoin_relative hrel]

/-- The paths of a task: each in its directory, and no two alike. -/
theorem keys_writeTask (F : Type) [Runtime F] (t : TaskSpec) (dir : PyStr) :
    ∃ names : List PyStr, names.Nodup ∧
      (writeTask F t dir).keys = names.map fun n => dir ++ ch '/' :: n := by
  refine ⟨(t.inputs.entries.keys.map fun k => py "inputs" ++ ch '/' :: k) ++
    (t.private_.entries.keys.map fun k => py "private" ++ ch '/' :: k) ++ [py "task.toml"], ?_, ?_⟩
  · have hinj : ∀ table : PyStr, Function.Injective fun k => table ++ ch '/' :: k :=
      fun table a b h => (List.cons.inj (List.append_cancel_left h)).2
    rw [List.nodup_append, List.nodup_append]
    -- the three kinds of names differ in their first letter
    refine ⟨⟨t.inputs.nodup.map (hinj _), t.private_.nodup.map (hinj _), ?_⟩,
      List.nodup_singleton _, ?_⟩
    · rintro a ha b hb rfl
      obtain ⟨k, -, rfl⟩ := List.mem_map.mp ha
      obtain ⟨l, -, hl⟩ := List.mem_map.mp hb
      exact absurd (show ch 'p' = ch 'i' from (List.cons.inj hl).1) (by decide)
    · rintro a ha b hb rfl
      rcases List.mem_append.mp ha with ha | ha
      · obtain ⟨k, -, hk⟩ := List.mem_map.mp ha
        rw [List.mem_singleton.mp hb] at hk
        exact absurd (show ch 'i' = ch 't' from (List.cons.inj hk).1) (by decide)
      · obtain ⟨k, -, hk⟩ := List.mem_map.mp ha
        rw [List.mem_singleton.mp hb] at hk
        exact absurd (show ch 'p' = ch 't' from (List.cons.inj hk).1) (by decide)
  · have hkeys : (writeTask F t dir).keys = (tableFiles dir (py "inputs") t.inputs).keys ++
        (tableFiles dir (py "private") t.private_).keys ++ [pathJoin dir (py "task.toml")] := by
      simp [writeTask, Dict.keys]
    rw [hkeys, keys_tableFiles (by decide), keys_tableFiles (by decide),
      pathJoin_relative (by decide)]
    simp only [List.map_append, List.map_map, List.map_cons, List.map_nil]
    rfl

theorem digitsVal_index3 (i : ℕ) : digitsVal (index3 i) = i := by
  have hzeros : ∀ n, digitsVal (List.replicate n (ch '0') ++ natText i) = i := by
    intro n
    induction n with
    | zero => exact digitsVal_natText i
    | succ n ih => exact ih
  exact hzeros _

theorem isDigit_index3 {i : ℕ} {c : CodePoint} (h : c ∈ index3 i) : isDigit c = true := by
  rcases List.mem_append.mp h with h | h
  · rw [List.eq_of_mem_replicate h]
    decide
  · exact isDigit_of_mem_natText h

theorem taskDir_eq (i : ℕ) (id : PyStr) :
    taskDir i id = py "tasks" ++ ch '/' :: (index3 i ++ ch '-' :: slug id) := by
  apply pathJoin_relative
  intro h
  rw [List.head?_append, Option.or_eq_some_iff] at h
  rcases h with h | ⟨-, h⟩
  · exact absurd (isDigit_index3 (List.mem_of_mem_head? h)) (by decide)
  · exact absurd (show ch '-' = ch '/' from Option.some.inj h) (by decide)

/-- The number of a task can be read off every path in its directory. -/
theorem index_of_path {i j : ℕ} {a b r s : PyStr}
    (h : taskDir i a ++ r = taskDir j b ++ s) : i = j := by
  have hnum : ∀ (k : ℕ) (t : PyStr), (index3 k ++ ch '-' :: t).takeWhile isDigit = index3 k := by
    intro k t
    rw [List.takeWhile_append_of_pos fun c hc => isDigit_index3 hc,
      List.takeWhile_cons_of_neg (by decide), List.append_nil]
  rw [taskDir_eq, taskDir_eq, List.append_assoc, List.append_assoc] at h
  have htail : index3 i ++ ch '-' :: slug a ++ r = index3 j ++ ch '-' :: slug b ++ s :=
    (List.cons.inj (List.append_cancel_left h)).2
  rw [List.append_assoc, List.append_assoc, List.cons_append, List.cons_append] at htail
  have hdigits := congrArg (fun t => digitsVal (t.takeWhile isDigit)) htail
  simpa only [hnum, digitsVal_index3] using hdigits

/-- No two files of a campaign have one path: `write_campaign` overwrites nothing of its own. -/
theorem nodup_writeCampaign (F : Type) [Runtime F] (id : PyStr) (specs : List TaskSpec)
    (configs : Mapping PyStr) (split : PyStr) :
    (writeCampaign F id specs configs split).keys.Nodup := by
  have hkeys : (writeCampaign F id specs configs split).keys =
      (specs.zipIdx.flatMap fun p => (writeTask F p.1 (taskDir p.2 p.1.id)).keys) ++
        [py "campaign.toml"] := by
    simp [writeCampaign, Dict.keys, List.map_flatMap]
  have hpath : ∀ (p : TaskSpec × ℕ) (path : PyStr),
      path ∈ (writeTask F p.1 (taskDir p.2 p.1.id)).keys →
      ∃ n, taskDir p.2 p.1.id ++ ch '/' :: n = path := by
    intro p path hmem
    obtain ⟨names, -, heq⟩ := keys_writeTask F p.1 (taskDir p.2 p.1.id)
    rw [heq] at hmem
    obtain ⟨n, -, hn⟩ := List.mem_map.mp hmem
    exact ⟨n, hn⟩
  rw [hkeys, List.nodup_append, List.nodup_flatMap]
  refine ⟨⟨?_, ?_⟩, List.nodup_singleton _, ?_⟩
  · intro p _
    obtain ⟨names, hnames, heq⟩ := keys_writeTask F p.1 (taskDir p.2 p.1.id)
    rw [heq]
    exact hnames.map fun a b h => (List.cons.inj (List.append_cancel_left h)).2
  · -- two tasks have different numbers, and a path shows its task's
    have hnums : (specs.zipIdx.map Prod.snd).Nodup := List.nodup_zipIdx_map_snd specs
    rw [List.Nodup, List.pairwise_map] at hnums
    refine hnums.imp fun {p q} hne path hp hq => ?_
    obtain ⟨n, hn⟩ := hpath p path hp
    obtain ⟨m, hm⟩ := hpath q path hq
    exact hne (index_of_path (hn.trans hm.symm))
  · rintro path hmem other hother rfl
    obtain ⟨p, -, hp⟩ := List.mem_flatMap.mp hmem
    obtain ⟨n, hn⟩ := hpath p path hp
    rw [List.mem_singleton.mp hother, taskDir_eq] at hn
    exact absurd (show ch 't' = ch 'c' from (List.cons.inj hn).1) (by decide)

/-- A disk with nothing but the campaign on it. -/
theorem holds_lookup {files : Dict Bytes} (h : files.keys.Nodup) :
    Holds (fun path => files.lookup path) files :=
  fun _ hf => Dict.lookup_eq_some_of_mem h hf

/-! ### The campaign -/

section Campaign

variable {id split : PyStr} {specs : List TaskSpec} {configs : Mapping PyStr}

/-- The configs as a table. -/
def configTable (configs : Mapping PyStr) : Table := configs.entries.map fun e => (e.1, .str e.2)

/-- The element of the array `tasks` for task number `p.2`. -/
def taskElement (split : PyStr) (p : TaskSpec × ℕ) : Table :=
  [(py "path", .str (pathJoin (taskDir p.2 p.1.id) (py "task.toml"))), (py "split", .str split)]

/-- The document of a campaign. -/
def campaignDocument (id : PyStr) (specs : List TaskSpec) (configs : Mapping PyStr)
    (split : PyStr) : Document :=
  [(py "id", .value (.str id)), (py "configs", .table (configTable configs))] ++
    if specs = [] then [] else [(py "tasks", .tables (specs.zipIdx.map (taskElement split)))]

theorem campaignStatements_lines : (campaignStatements id specs configs split).map Statement.line =
    linesOf [(py "id", .str id)] ((.table (py "configs"), configTable configs) ::
      (specs.zipIdx.map (taskElement split)).map fun t => (.element (py "tasks"), t)) := by
  simp [campaignStatements, elementStatements, linesOf, Statement.line, bareKey, Datum.value,
    configTable, taskElement, List.map_flatMap, List.flatMap_map, Function.comp_def]

/-- The headers are one table and the elements of one array, so none clashes. -/
theorem assemble_campaign :
    assemble [(py "id", .str id)] ((.table (py "configs"), configTable configs) ::
      (specs.zipIdx.map (taskElement split)).map fun t => (.element (py "tasks"), t)) =
    some (campaignDocument id specs configs split) := by
  have hconfigs : (configTable configs).keys.Nodup := by
    have hkeys : (configTable configs).keys = configs.entries.keys := by
      simp [configTable, Dict.keys, Function.comp_def]
    rw [hkeys]
    exact configs.nodup
  have helements : ∀ s ∈ (specs.zipIdx.map (taskElement split)).map fun t =>
      (Header.element (py "tasks"), t), s.2.keys.Nodup := by
    refine List.forall_mem_map.mpr (List.forall_mem_map.mpr fun p _ => ?_)
    simp [taskElement, Dict.keys]
  have hnew : py "tasks" ∉ Dict.keys [(py "id", Node.value (.str id)),
      (py "configs", .table (configTable configs))] := by simp [Dict.keys]
  have hjoin : join [(py "id", .value (.str id))] (.table (py "configs"), configTable configs) =
      some [(py "id", .value (.str id)), (py "configs", .table (configTable configs))] := by
    simp [join, Dict.keys, Dict.set]
  rw [assemble, if_pos ⟨by simp [Dict.keys], List.forall_mem_cons.mpr ⟨hconfigs, helements⟩⟩,
    List.foldlM_cons]
  show (join [(py "id", .value (.str id))] (.table (py "configs"), configTable configs)).bind _ = _
  rw [hjoin, Option.bind_some, campaignDocument]
  rcases specs with - | ⟨t, specs⟩
  · simp
  · rw [List.zipIdx_cons, List.map_cons, foldlM_new_elements hnew, if_neg (by simp)]

/-- What the campaign's strings must be for both notations to agree on them. -/
def BmpCampaign (id : PyStr) (specs : List TaskSpec) (configs : Mapping PyStr)
    (split : PyStr) : Prop :=
  Bmp id ∧ (∀ e ∈ configs.entries, Bmp e.1 ∧ Bmp e.2) ∧ (specs ≠ [] → Bmp split)

instance : Decidable (BmpCampaign id specs configs split) :=
  inferInstanceAs (Decidable (_ ∧ _ ∧ _))

theorem bmp_pathJoin {a b : PyStr} (ha : Bmp a) (hb : Bmp b) : Bmp (pathJoin a b) := by
  unfold pathJoin
  split_ifs
  · exact hb
  · exact bmp_append.mpr ⟨ha, bmp_cons.mpr ⟨by decide, hb⟩⟩

theorem bmp_index3 (i : ℕ) : Bmp (index3 i) := by
  have hzeros : Bmp (List.replicate (3 - (natText i).length) (ch '0')) := by
    intro c hc
    rw [List.eq_of_mem_replicate hc]
    decide
  refine bmp_append.mpr ⟨hzeros, bmp_of_ascii fun c hc => ?_⟩
  have := printable_natText i c hc
  omega

theorem bmp_slug (s : PyStr) : Bmp (slug s) := by
  apply bmp_of_ascii
  intro c hc
  obtain ⟨d, -, rfl⟩ := List.mem_map.mp hc
  by_cases hd : isSlugChar d = true
  · rw [if_pos hd]
    simp only [isSlugChar, isDigit, Bool.or_eq_true, Bool.and_eq_true, decide_eq_true_iff,
      beq_iff_eq] at hd
    rcases hd with ((hd | rfl) | rfl) | rfl
    · omega
    all_goals decide
  · rw [if_neg hd]
    decide

/-- The path of a task has the letters of a slug and of a number only. -/
theorem bmp_taskPath (p : TaskSpec × ℕ) : Bmp (pathJoin (taskDir p.2 p.1.id) (py "task.toml")) := by
  have hname : Bmp (index3 p.2 ++ ch '-' :: slug p.1.id) :=
    bmp_append.mpr ⟨bmp_index3 _, bmp_cons.mpr ⟨by decide, bmp_slug _⟩⟩
  exact bmp_pathJoin (bmp_pathJoin (bmp_py rfl) hname) (bmp_py rfl)

theorem bmp_elementStatements (p : TaskSpec × ℕ) :
    (∀ st ∈ elementStatements split p, ∀ s ∈ st.strings, Bmp s) ↔ Bmp split := by
  have hpath := bmp_taskPath p
  simp [elementStatements, Statement.strings, Datum.strings, hpath]

theorem bmp_campaignStatements :
    (∀ st ∈ campaignStatements id specs configs split, ∀ s ∈ st.strings, Bmp s) ↔
      BmpCampaign id specs configs split := by
  have hconfigs : (∀ st ∈ configs.entries.map fun e => Statement.entry e.1 (.str e.2),
      ∀ s ∈ st.strings, Bmp s) ↔ ∀ e ∈ configs.entries, Bmp e.1 ∧ Bmp e.2 := by
    rw [List.forall_mem_map]
    refine forall₂_congr fun e _ => ?_
    simp [Statement.strings, Datum.strings]
  have htasks : (∀ st ∈ specs.zipIdx.flatMap (elementStatements split),
      ∀ s ∈ st.strings, Bmp s) ↔ (specs ≠ [] → Bmp split) := by
    rw [List.forall_mem_flatMap]
    simp only [bmp_elementStatements]
    constructor
    · intro h hne
      obtain ⟨t, specs, rfl⟩ := List.exists_cons_of_ne_nil hne
      exact h (t, 0) (by simp [List.zipIdx_cons])
    · intro h p hp
      exact h fun he => by simp [he] at hp
  rw [campaignStatements, List.forall_mem_append, List.forall_mem_append, hconfigs, htasks,
    BmpCampaign, and_assoc]
  refine and_congr_left fun _ => ?_
  simp [Statement.strings, Datum.strings]

/-- `campaign.toml` is a TOML document exactly when the campaign is plain. -/
theorem parse_campaign {F : Type} [Runtime F] :
    parse (joinLines (campaignLines F id specs configs split)) =
      if BmpCampaign id specs configs split then some (campaignDocument id specs configs split)
      else none := by
  have hne : campaignStatements id specs configs split ≠ [] := by simp [campaignStatements]
  rw [campaignLines_eq, parse_statements hne, campaignStatements_lines, sections_linesOf]
  by_cases h : BmpCampaign id specs configs split
  · rw [if_pos (bmp_campaignStatements.mpr h), if_pos h]
    exact assemble_campaign
  · rw [if_neg fun hb => h (bmp_campaignStatements.mp hb), if_neg h]

/-- The readers find in the document the campaign with the tasks its paths lead to. -/
theorem readCampaign_campaignDocument {disk : Disk}
    (h : ∀ p ∈ specs.zipIdx,
      loadTask disk (pathJoin (taskDir p.2 p.1.id) (py "task.toml")) = some p.1) :
    readCampaign disk (campaignDocument id specs configs split) =
      some ⟨id, specs.map fun t => (t, split), configs⟩ := by
  have hconfigs : (configTable configs).mapM (fun e => do
      let path ← asStr e.2
      some (e.1, path)) = some configs.entries := by
    rw [mapM_some, configTable, List.forall₂_map_left_iff, List.forall₂_same]
    exact fun _ _ => rfl
  have hmapping : Mapping.ofEntries configs.entries = some configs := dif_pos configs.nodup
  have htables : docTables (campaignDocument id specs configs split) (py "tasks") =
      some (specs.zipIdx.map (taskElement split)) := by
    rcases specs with - | ⟨t, specs⟩ <;>
      simp [docTables, campaignDocument, List.lookup_cons]
  have hspecs : specs.map (fun t => (t, split)) = specs.zipIdx.map fun p => (p.1, split) := by
    conv_lhs => rw [← List.zipIdx_map_fst 0 specs, List.map_map]
    rfl
  -- each element leads to its own file
  have htasks : (specs.zipIdx.map (taskElement split)).mapM (fun t => do
      let path ← (t.lookup (py "path")).bind asStr
      let task ← loadTask disk path
      let split ← (t.lookup (py "split")).bind asStr
      some (task, split)) = some (specs.map fun t => (t, split)) := by
    rw [mapM_some, hspecs, List.forall₂_map_left_iff, List.forall₂_map_right_iff,
      List.forall₂_same]
    intro p hp
    simp [taskElement, List.lookup_cons, asStr, h p hp]
  have hid : (docValue (campaignDocument id specs configs split) (py "id")).bind asStr =
      some id := rfl
  have htable : docTable (campaignDocument id specs configs split) (py "configs") =
      some (configTable configs) := by
    simp [docTable, campaignDocument, List.lookup_cons]
  simp only [readCampaign, hid, htable, htables, Option.bind_eq_bind, Option.bind_some]
  simp only [Option.bind_eq_bind] at hconfigs htasks
  rw [hconfigs, Option.bind_some, hmapping, Option.bind_some, htasks, Option.bind_some]

/-- What the files of a campaign say: all of it, or nothing where `campaign.toml` is no TOML. -/
theorem loadCampaign_writeCampaign {F : Type} [Runtime F] {disk : Disk}
    (hdisk : Holds disk (writeCampaign F id specs configs split))
    (hascii : ∀ t ∈ specs, t.Ascii) :
    loadCampaign disk = if BmpCampaign id specs configs split then
      some ⟨id, specs.map fun t => (t, split), configs⟩ else none := by
  obtain ⟨htasks, htoml⟩ := List.forall_mem_append.mp hdisk
  have hread := List.forall_mem_singleton.mp htoml
  have hloads : Toml.loads (encode (joinLines (campaignLines F id specs configs split))) =
      parse (joinLines (campaignLines F id specs configs split)) := by
    rw [campaignLines_eq]
    exact loads_statements _
  rw [loadCampaign, hread, Option.bind_some, hloads, parse_campaign]
  split_ifs with hplain
  · apply readCampaign_campaignDocument
    intro p hp
    apply loadTask_writeTask (F := F)
    · exact List.forall_mem_flatMap.mp htasks p hp
    · exact hascii p.1 (List.fst_mem_of_mem_zipIdx hp)
  · rfl

/-- On any disk that holds what `write_campaign` wrote of tasks in ASCII, whose files have plain
names, the files read back as the campaign, its configs and its tasks in their order, exactly when
neither a code point beyond U+FFFF nor a surrogate stands in the campaign's id, in the name or the
path of a config, or in the split of its tasks. -/
theorem campaign_round_trip_iff (F : Type) [Runtime F] {disk : Disk}
    (hdisk : Holds disk (writeCampaign F id specs configs split))
    (hascii : ∀ t ∈ specs, t.Ascii) :
    loadCampaign disk = some ⟨id, specs.map fun t => (t, split), configs⟩ ↔
      BmpCampaign id specs configs split := by
  rw [loadCampaign_writeCampaign hdisk hascii]
  split_ifs with hplain
  · exact iff_of_true rfl hplain
  · exact iff_of_false (by simp) hplain

end Campaign

/-- A program task. -/
def rot13Task : TaskSpec where
  id := py "rot13::gcc-O2-sym::program"
  objective := py "Read task.md."
  inputs := ⟨⟨[(py "family.json", [0x7b, 0x7d]), (py "task.md", [0x23])], by simp [Dict.keys]⟩,
    by decide⟩
  private_ := ⟨⟨[(py "binary", [0x7f]), (py "task.json", [0x7b, 0x7d])], by simp [Dict.keys]⟩,
    by decide⟩
  checks := [py "program-replay"]
  submissions := 8
  checkBudget := some 8
  duplicateGuard := some ⟨2, 3, 24, 6, 8⟩
  memory := some ⟨py "rot13", [py "family.json"]⟩

/-- One run config. -/
def qwenConfig : Mapping PyStr := ⟨[(py "run-qwen", py "../run-qwen.toml")], by simp [Dict.keys]⟩

/-- The files of a campaign on one task, by path. -/
def rot13Files (id : PyStr) : Dict Bytes :=
  writeCampaign ZeroFloat id [rot13Task] qwenConfig (py "training")

theorem holds_rot13Files (id : PyStr) : Holds (fun path => (rot13Files id).lookup path)
    (rot13Files id) :=
  holds_lookup (nodup_writeCampaign _ _ _ _ _)

theorem ascii_rot13Task : ∀ t ∈ [rot13Task], t.Ascii := List.forall_mem_singleton.mpr (by decide)

/-- An id with an accent comes back. -/
theorem campaign_round_trip_accent :
    loadCampaign (fun path => (rot13Files (py "été")).lookup path) =
      some ⟨py "été", [(rot13Task, py "training")], qwenConfig⟩ :=
  (campaign_round_trip_iff ZeroFloat (holds_rot13Files _) ascii_rot13Task).mpr (by decide)

/-- An id of one emoji, as the name of the `--out` directory may be, does not. -/
theorem campaign_round_trip_not_always :
    ¬∀ (id : PyStr) (specs : List TaskSpec) (configs : Mapping PyStr) (disk : Disk),
      Holds disk (writeCampaign ZeroFloat id specs configs (py "training")) →
      (∀ t ∈ specs, t.Ascii) →
      loadCampaign disk = some ⟨id, specs.map fun t => (t, py "training"), configs⟩ := by
  intro h
  have hload := h [0x1f600] [rot13Task] qwenConfig _ (holds_rot13Files _) ascii_rot13Task
  rw [loadCampaign_writeCampaign (holds_rot13Files [0x1f600]) ascii_rot13Task,
    if_neg (by decide)] at hload
  exact absurd hload (by simp)

end ReSchema
