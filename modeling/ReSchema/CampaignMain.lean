/-
ReSchema/CampaignMain.lean

The command that writes a campaign (`campaign.py`).

It checks its run configs, rebuilds the corpus, makes the tasks of the slots and
writes them, and prints the commands that are to be run next, with the project's
allowances.  The package that runs campaigns has its own checks of a config
(`Warranted`); what the command makes of a config before and after them is here.

  * `campaign_written_iff`: when it writes;
  * `printed_commands`: the printed lines are read back as commands, and each
    allowance is the most that the planned runs can spend;
  * `campaign_serves`: from the rebuilt corpus to the readers of the tasks.
-/
import ReSchema.CorpusManifest
import ReSchema.NormSource
import ReSchema.Py.Shlex
import ReSchema.SlotTasks

namespace ReSchema

open Py

/-! ### Run configs -/

/-- What the package checks of a config, as the text of its exception if it has one:
`LocalChatCompletions(base_url, model, **adapter)` and `RunConfig(model, max_steps, budgets,
container_timeout_seconds=...)`. -/
structure Warranted (F : Type) where
  localChat : Json F → PyStr → Dict (Json F) → Option PyStr
  runConfig : PyStr → Json F → Dict ℤ → Json F → Option PyStr

/-- A run config on the command line. -/
structure ConfigArg (F : Type) where
  /-- `str(c)`. -/
  path : PyStr
  /-- `c.stem`. -/
  stem : PyStr
  /-- `os.path.relpath(c.resolve(), out)`. -/
  relative : PyStr
  /-- `tomllib.loads(c.read_text())`, or the text of its exception. -/
  data : Except PyStr (Dict (Json F))
  /-- No table has a key twice. -/
  nodup : ∀ d b, data = .ok d → d.lookup (py "budgets") = some (.obj b) → (Dict.keys b).Nodup

section Budgets

variable {F : Type} (W : Warranted F)

/-- `known`. -/
def configKeys : List PyStr :=
  [py "model", py "provider", py "max_steps", py "container_timeout_seconds", py "budgets",
    py "adapter"]

/-- `REQUIRED_BUDGETS`. -/
def requiredBudgets : List PyStr := [py "model", py "tool", py "probe"]

/-- `LITELLM_REQUIRED`. -/
def litellmRequired : List PyStr := [py "api_key_file", py "max_tokens", py "timeout_seconds"]

/-- `LITELLM_FIELDS`. -/
def litellmFields : List PyStr := litellmRequired ++ [py "api_base", py "parameters"]

/-- `_int_in(n, lo, hi)`. -/
def intIn (v : Option (Json F)) (lo hi : ℤ) : Bool :=
  match v.bind Json.int? with
  | some n => lo ≤ n && n ≤ hi
  | none => false

/-- `not s.strip()`. -/
def isBlankText (s : PyStr) : Bool := s.all isSpace

/-- `s != s.strip()`. -/
def isPadded (s : PyStr) : Bool := s.head?.any isSpace || s.getLast?.any isSpace

/-- The rules of the litellm adapter, on its fields. -/
def litellmOk (model : PyStr) (adapter : Dict (Json F)) : Bool :=
  let name := partition (py "/") model
  !isBlankText name.1 && !isBlankText name.2 && !isPadded model &&
    ((adapter.lookup (py "api_key_file")).bind Json.str?).any (fun s => !isBlankText s) &&
    intIn (adapter.lookup (py "max_tokens")) 1 131072 &&
    intIn (adapter.lookup (py "timeout_seconds")) 1 600 &&
    ((adapter.lookup (py "api_base")).getD (.str [])).str?.isSome &&
    ((adapter.lookup (py "parameters")).getD (.obj [])).obj?.isSome

/-- The text of the error on the model and the fields. -/
def modelError : PyStr :=
  py ("needs a model string, and only ['adapter', 'budgets', 'container_timeout_seconds', " ++
    "'max_steps', 'model', 'provider']")

/-- The text of the error on the provider. -/
def providerError : PyStr := py "provider is ollama or litellm; [adapter] is a table"

/-- The provider and its adapter, checked. -/
def checkAdapter (model : PyStr) (provider : Json F) (adapter : Dict (Json F)) :
    Except PyStr Unit :=
  if provider.str? = some (py "ollama") then
    let url := (adapter.lookup (py "base_url")).getD (.str (py "http://127.0.0.1:11434/v1"))
    match W.localChat url model (adapter.filter fun e => e.1 ≠ py "base_url") with
    | some why => .error why
    | none => .ok ()
  else if provider.str? = some (py "litellm") then
    if !(litellmRequired ⊆ adapter.keys && adapter.keys ⊆ litellmFields) then
      .error (py ("a litellm [adapter] needs ['api_key_file', 'max_tokens', 'timeout_seconds'], " ++
        "and only ['api_base', 'api_key_file', 'max_tokens', 'parameters', 'timeout_seconds']"))
    else if !litellmOk model adapter then
      .error (py ("litellm: model is provider/model; api_key_file a path; " ++
        "max_tokens 1..131072; timeout_seconds 1..600"))
    else .ok ()
  else .error providerError

/-- The amounts of `[budgets]`, if they are well formed. -/
def budgetAmounts (v : Json F) : Option (Dict ℤ) := do
  let b ← v.obj?
  if requiredBudgets ⊆ b.keys then
    b.mapM fun e => do
      let n ← e.2.int?
      if 0 ≤ n then return (e.1, n) else none
  else none

/-- `_budgets(data)`. -/
def budgetsOf (data : Dict (Json F)) : Except PyStr (Dict ℤ) :=
  match (data.lookup (py "model")).bind Json.str? with
  | none => .error modelError
  | some model =>
      if !(data.keys ⊆ configKeys) then .error modelError
      else
        match ((data.lookup (py "adapter")).getD (.obj [])).obj? with
        | none => .error providerError
        | some adapter =>
            match checkAdapter W model ((data.lookup (py "provider")).getD (.str (py "ollama")))
                adapter with
            | .error why => .error why
            | .ok () =>
                match budgetAmounts ((data.lookup (py "budgets")).getD (.obj [])) with
                | none => .error (py ("[budgets] must set ['model', 'probe', 'tool'] " ++
                    "(and any other units) to integers >= 0"))
                | some b =>
                    match W.runConfig model ((data.lookup (py "max_steps")).getD (.int 4)) b
                        ((data.lookup (py "container_timeout_seconds")).getD (.int 120)) with
                    | some why => .error why
                    | none => .ok b

/-- The budgets of one config, or the detail of the failure. -/
def readConfig (c : ConfigArg F) : Except PyStr (Dict ℤ) :=
  match c.data with
  | .error why => .error (c.path ++ py ": " ++ why)
  | .ok data =>
      match budgetsOf W data with
      | .error why => .error (c.path ++ py ": " ++ why)
      | .ok b => .ok b

end Budgets

/-! ### The command -/

/-- The arguments of `write`, and what the host has at their paths. -/
structure CampaignArgs (F : Type) where
  /-- `str(a.out)`, and the same resolved. -/
  out : PyStr
  outResolved : PyStr
  /-- `out.name`. -/
  outName : PyStr
  /-- `out` is there and is not an empty directory. -/
  outTaken : Bool
  id : Option PyStr
  configs : List (ConfigArg F)
  /-- `str(a.project)`. -/
  project : Option PyStr
  slots : List PyStr
  all : Bool

/-- How the command ends. -/
inductive CampaignOutcome (F : Type)
  /-- `p.error`. -/
  | usage
  /-- `_fail(reason, **detail)`. -/
  | failed (reason : PyStr) (detail : Dict (Json F))
  | raised
  /-- The files it writes, by their paths relative to `out`, and what it prints. -/
  | wrote (files : Dict Bytes) (lines : List PyStr)

/-- `str(Path(dir) / name)`, for a path that `pathlib` has written. -/
def pathIn (dir name : PyStr) : PyStr :=
  if dir = py "." then name else if dir = py "/" then ch '/' :: name else dir ++ ch '/' :: name

/-- `allow.update({u: n * len(specs) for u, n in b.items()})`. -/
def addBudget (tasks : ℕ) (allow : Dict ℤ) (b : Dict ℤ) : Dict ℤ :=
  b.foldl (fun acc e => acc.set e.1 ((acc.lookup e.1).getD 0 + e.2 * tasks)) allow

/-- `sum(t.check_budget or 0 for t in specs)`. -/
def checkBudgets (specs : List TaskSpec) : ℤ := (specs.map fun t => t.checkBudget.getD 0).sum

/-- `allow`. -/
def allowances (budgets : List (Dict ℤ)) (specs : List TaskSpec) : Dict ℤ :=
  (budgets.foldl (addBudget specs.length) []).set (py "check")
    (budgets.length * checkBudgets specs)

/-- `allows`. -/
def allowFlags (allow : Dict ℤ) : List PyStr :=
  (allow.insertionSort fun a b => a.1 ≤ b.1).flatMap fun e =>
    [py "--allow", e.1 ++ ch '=' :: intText e.2]

/-- The commands that are to be run next. -/
def nextCommands (project out id : PyStr) (allow : Dict ℤ) : List (List PyStr) :=
  [[py "uv", py "run", py "warranted", py "init", project, py "--domain",
      py "reschema.domain:ReSchemaDomain"] ++ allowFlags allow,
    [py "uv", py "run", py "warranted", py "campaign", py "run", project,
      pathIn out (py "campaign.toml")],
    [py "uv", py "run", py "warranted", py "campaign", py "report", project, id],
    [py "uv", py "run", py "python", py "-m", py "reschema.regrade", project]]

section Main

variable {F : Type} [Runtime F] (code : Code) (c : Container) (S : Root → TaskSources)
  (W : Warranted F)

/-- `a.id or out.name`. -/
def CampaignArgs.campaignId (a : CampaignArgs F) : PyStr :=
  match a.id with
  | none | some [] => a.outName
  | some id => id

/-- `a.project or a.out / "project"`. -/
def CampaignArgs.projectDir (a : CampaignArgs F) : PyStr :=
  a.project.getD (pathIn a.out (py "project"))

/-- The slots that were asked for, in the manifest; `none` for a `KeyError`. -/
def metasOf (a : CampaignArgs F) (current : List PyStr) (manifest : Dict Entry) :
    Option (List Entry) :=
  if a.all then some ((manifest.filter fun e => e.1 ∈ current).map Prod.snd)
  else a.slots.mapM fun s => manifest.lookup s

/-- `names` and the paths of the configs, for `write_campaign`. -/
def configPaths (configs : List (ConfigArg F)) (h : (configs.map ConfigArg.stem).Nodup) :
    Mapping PyStr :=
  ⟨configs.map fun c => (c.stem, c.relative), by simpa [Dict.keys, Function.comp_def] using h⟩

/-- What is written and printed once the slots are known. -/
def writeSlots (a : CampaignArgs F) (h : (a.configs.map ConfigArg.stem).Nodup)
    (budgets : List (Dict ℤ)) (S : TaskSources) (metas : List Entry) : CampaignOutcome F :=
  match metas.mapM (slotTasks F S) with
  | none => .raised
  | some tasks =>
      let specs := tasks.flatten
      .wrote (writeCampaign F a.campaignId specs (configPaths a.configs h) (py "training"))
        ((py "wrote " ++ pathIn a.outResolved (py "campaign.toml") ++ py " (" ++
            natText specs.length ++ py " tasks, " ++ natText metas.length ++ py " slots)") ::
          py "next:" ::
          (nextCommands a.projectDir a.out a.campaignId (allowances budgets specs)).map fun cmd =>
            py "  " ++ shellJoin cmd)

/-- `main(argv)` for `write`. -/
def campaignMain (root : Root) (a : CampaignArgs F) : CampaignOutcome F :=
  if (!a.slots.isEmpty) = a.all then .usage
  else if a.outTaken then
    .failed (py "bad-config") [(py "detail", .str (py "--out must be new or empty: " ++ a.outResolved))]
  else if h : (a.configs.map ConfigArg.stem).Nodup then
    match a.configs.mapM (readConfig W) with
    | .error why => .failed (py "bad-config") [(py "detail", .str why)]
    | .ok budgets =>
        let current := code.slots.map Slot.taskId
        let unknown := a.slots.filter (· ∉ current)
        if unknown ≠ [] then
          .failed (py "unknown-slot") [(py "slots", strs unknown),
            (py "available", strs (current.dedup.insertionSort (· ≤ ·)))]
        else
          match build code c ⟨none, none⟩ root with
          | (_, .error _) => .raised
          | (built, .ok _) =>
              match loadManifest code.version built with
              | .error _ => .raised
              | .ok entries =>
                  match metasOf a current
                      (Dict.update [] (entries.map fun e => (e.taskId, e))) with
                  | none => .raised
                  | some metas => writeSlots a h budgets (S built) metas
  else .failed (py "duplicate-config-name") [(py "configs", strs (a.configs.map ConfigArg.stem))]

end Main

/-! ### The allowances -/

/-- What a run of a task under a config may spend of a unit: the config's budget, but for checks,
which are the task's. -/
def runLimit (u : PyStr) (r : Dict ℤ × TaskSpec) : ℤ :=
  if u = py "check" then r.2.checkBudget.getD 0 else (r.1.lookup u).getD 0

theorem lookup_addBudget (n : ℕ) (u : PyStr) {b : Dict ℤ} (hb : b.keys.Nodup) (allow : Dict ℤ) :
    ((addBudget n allow b).lookup u).getD 0 =
      (allow.lookup u).getD 0 + (b.lookup u).getD 0 * n := by
  induction b generalizing allow with
  | nil => simp [addBudget]
  | cons e b ih =>
      obtain ⟨hnew, hb⟩ := List.nodup_cons.mp hb
      rw [addBudget, List.foldl_cons]
      rw [show List.foldl _ _ b = addBudget n _ b from rfl, ih hb]
      rcases eq_or_ne u e.1 with rfl | hne
      · rw [Dict.lookup_set_self, Dict.lookup_of_not_mem hnew, List.lookup_cons_self]
        simp
      · have hbeq : (u == e.1) = false := beq_eq_false_iff_ne.mpr hne
        rw [Dict.lookup_set_of_ne _ _ hne, List.lookup_cons, hbeq]

theorem lookup_addBudgets (n : ℕ) (u : PyStr) {budgets : List (Dict ℤ)}
    (h : ∀ b ∈ budgets, b.keys.Nodup) (allow : Dict ℤ) :
    ((budgets.foldl (addBudget n) allow).lookup u).getD 0 =
      (allow.lookup u).getD 0 + (budgets.map fun b => (b.lookup u).getD 0 * (n : ℤ)).sum := by
  induction budgets generalizing allow with
  | nil => simp
  | cons b budgets ih =>
      obtain ⟨hb, h⟩ := List.forall_mem_cons.mp h
      rw [List.foldl_cons, ih h, lookup_addBudget n u hb, List.map_cons, List.sum_cons, add_assoc]

theorem lookup_allowances {budgets : List (Dict ℤ)} (h : ∀ b ∈ budgets, b.keys.Nodup)
    (specs : List TaskSpec) (u : PyStr) : ((allowances budgets specs).lookup u).getD 0 =
      ((budgets.product specs).map (runLimit u)).sum := by
  have hproduct : ((budgets.product specs).map (runLimit u)).sum =
      (budgets.map fun b => (specs.map fun t => runLimit u (b, t)).sum).sum := by
    induction budgets with
    | nil => rfl
    | cons b budgets ih =>
        have hcons : (b :: budgets).product specs =
            (specs.map fun t => (b, t)) ++ budgets.product specs := List.product_cons _ _ _
        rw [hcons, List.map_append, List.sum_append, List.map_map,
          ih (List.forall_mem_cons.mp h).2]
        rfl
  rw [hproduct, allowances]
  rcases eq_or_ne u (py "check") with rfl | hne
  · rw [Dict.lookup_set_self, Option.getD_some]
    simp [runLimit, checkBudgets]
  · rw [Dict.lookup_set_of_ne _ _ hne, lookup_addBudgets _ u h]
    simp [runLimit, hne, mul_comm]

/-- **An allowance is the worst case**: what the planned runs spend of a unit is at most that, and
they may spend all of it. -/
theorem allowances_greatest {budgets : List (Dict ℤ)} (h : ∀ b ∈ budgets, b.keys.Nodup)
    (specs : List TaskSpec) (u : PyStr) :
    IsGreatest {x : ℤ | ∃ spent, List.Forall₂ (fun r y => y ≤ runLimit u r)
      (budgets.product specs) spent ∧ spent.sum = x} (((allowances budgets specs).lookup u).getD 0) := by
  rw [lookup_allowances h]
  constructor
  · refine ⟨_, ?_, rfl⟩
    rw [List.forall₂_map_right_iff, List.forall₂_same]
    exact fun _ _ => le_rfl
  · rintro x ⟨spent, hspent, rfl⟩
    have hflip : List.Forall₂ (· ≤ ·) spent ((budgets.product specs).map (runLimit u)) := by
      rw [List.forall₂_map_right_iff]
      exact hspent.flip
    exact hflip.sum_le_sum

section Configs

variable {F : Type} {W : Warranted F} {b : Dict ℤ}

theorem budgetsOf_ok {data : Dict (Json F)} (h : budgetsOf W data = .ok b) :
    budgetAmounts ((data.lookup (py "budgets")).getD (.obj [])) = some b := by
  unfold budgetsOf at h
  split at h
  · cases h
  · split_ifs at h
    split at h
    · cases h
    · split at h
      · cases h
      · split at h
        · cases h
        · rename_i b' hb
          split at h
          · cases h
          · rw [hb, Except.ok.inj h]

theorem budgetAmounts_some {v : Json F} (h : budgetAmounts v = some b) :
    ∃ d : Dict (Json F), v = .obj d ∧ requiredBudgets ⊆ d.keys ∧ b.keys = d.keys := by
  rw [budgetAmounts] at h
  simp only [Option.bind_eq_bind, Option.bind_eq_some_iff] at h
  obtain ⟨d, hd, h⟩ := h
  split_ifs at h with hsub
  obtain rfl : v = .obj d := by
    cases v <;> simp_all [Json.obj?]
  refine ⟨d, rfl, hsub, ?_⟩
  refine (related_map (mapM_some.mp h) fun e f hef => ?_).symm
  obtain ⟨n, -, hn⟩ := Option.bind_eq_some_iff.mp hef
  split_ifs at hn
  exact congrArg Prod.fst (Option.some.inj hn)

/-- The budgets that the command goes on with have no unit twice. -/
theorem nodup_readConfig {c : ConfigArg F} (h : readConfig W c = .ok b) : b.keys.Nodup := by
  unfold readConfig at h
  split at h
  · cases h
  · rename_i data hdata
    split at h
    · cases h
    · rename_i b' hb
      obtain rfl := Except.ok.inj h
      obtain ⟨d, hd, hsub, hkeys⟩ := budgetAmounts_some (budgetsOf_ok hb)
      rw [hkeys]
      rcases hlookup : data.lookup (py "budgets") with - | v
      · rw [hlookup] at hd
        obtain rfl := Json.obj.inj hd
        exact List.nodup_nil
      · rw [hlookup] at hd
        obtain rfl : v = .obj d := hd
        exact c.nodup data d hdata hlookup

end Configs

/-! ### What is written -/

section Written

variable {F : Type} [Runtime F] {code : Code} {c : Container} {S : Root → TaskSources}
  {W : Warranted F} {root : Root} {a : CampaignArgs F} {files : Dict Bytes} {lines : List PyStr}

/-- What stands behind a campaign that was written: its budgets, the root that was built, and the
entries of the slots and their tasks. -/
structure Behind (code : Code) (c : Container) (S : Root → TaskSources) (W : Warranted F)
    (root : Root) (a : CampaignArgs F) (budgets : List (Dict ℤ)) (built : Root)
    (entries metas : List Entry) (tasks : List (List TaskSpec)) : Prop where
  given : (!a.slots.isEmpty) ≠ a.all
  fresh : a.outTaken = false
  stems : (a.configs.map ConfigArg.stem).Nodup
  budgets : a.configs.mapM (readConfig W) = .ok budgets
  known : ∀ s ∈ a.slots, s ∈ code.slots.map Slot.taskId
  build : ∃ es, build code c ⟨none, none⟩ root = (built, .ok es)
  manifest : loadManifest code.version built = .ok entries
  chosen : metasOf a (code.slots.map Slot.taskId)
    (Dict.update [] (entries.map fun e => (e.taskId, e))) = some metas
  tasks : metas.mapM (slotTasks F (S built)) = some tasks

theorem campaignMain_wrote (h : campaignMain code c S W root a = .wrote files lines) :
    ∃ budgets built entries metas tasks,
      ∃ hb : Behind code c S W root a budgets built entries metas tasks,
        files = writeCampaign F a.campaignId tasks.flatten (configPaths a.configs hb.stems)
          (py "training") ∧
        lines.drop 2 = (nextCommands a.projectDir a.out a.campaignId
          (allowances budgets tasks.flatten)).map fun cmd => py "  " ++ shellJoin cmd := by
  -- the early exits of the command in their order, each with nothing written
  unfold campaignMain at h
  split_ifs at h with hgiven htaken hstems
  rcases hbudgets : a.configs.mapM (readConfig W) with why | budgets
  · simp only [hbudgets] at h
    cases h
  simp only [hbudgets] at h
  split_ifs at h with hunknown
  rcases hbuild : build code c ⟨none, none⟩ root with ⟨built, err | es⟩
  · simp only [hbuild] at h
    cases h
  simp only [hbuild] at h
  rcases hmanifest : loadManifest code.version built with err | entries
  · simp only [hmanifest] at h
    cases h
  simp only [hmanifest] at h
  rcases hmetas : metasOf a (code.slots.map Slot.taskId)
    (Dict.update [] (entries.map fun e => (e.taskId, e))) with - | metas
  · simp only [hmetas] at h
    cases h
  simp only [hmetas, writeSlots] at h
  rcases htasks : metas.mapM (slotTasks F (S built)) with - | tasks
  · simp only [htasks] at h
    cases h
  simp only [htasks] at h
  obtain ⟨rfl, rfl⟩ := CampaignOutcome.wrote.inj h
  have hknown : ∀ s ∈ a.slots, s ∈ code.slots.map Slot.taskId := by
    intro s hs
    by_contra hnot
    exact hunknown (List.ne_nil_of_mem (List.mem_filter.mpr ⟨hs, decide_eq_true hnot⟩))
  exact ⟨budgets, built, entries, metas, tasks, ⟨hgiven, Bool.eq_false_iff.mpr htaken, hstems, hbudgets, hknown,
    ⟨es, hbuild⟩, hmanifest, hmetas, htasks⟩, rfl, rfl⟩

/-- What the slots were compiled to. -/
def compiledImage (c : Container) (s : Slot) : Image :=
  match c.compile s with
  | .wrote image => image
  | _ => ⟨[], []⟩

theorem compiledImage_eq {s : Slot} {image : Image} (h : c.compile s = .wrote image) :
    image = compiledImage c s := by
  rw [compiledImage, h]

/-- After a full build the manifest has the slots of the code and nothing else. -/
theorem manifest_fullBuild {built : Root} {es entries : List Entry} (hslots : code.slots ≠ [])
    (hbuild : build code c ⟨none, none⟩ root = (built, .ok es))
    (hload : loadManifest code.version built = .ok entries) :
    (∀ s ∈ code.slots, c.compile s = .wrote (compiledImage c s)) ∧
      ManifestOf (compiledImage c) (· ∈ code.slots) entries := by
  have hplan : planOf code ⟨none, none⟩ = code.slots := planOf_full rfl
  have hok := build_ok hbuild (by rwa [hplan])
  -- a full build does not look at the manifest it finds
  have hfresh : BuildOk code c ⟨none, none⟩ { root with manifest := none } built es :=
    ⟨hok.known, hok.entries, hok.stamp, hok.manifest⟩
  have hnone : ManifestOf (compiledImage c) (fun _ => False) [] := .nil _ fun _ h => h
  obtain ⟨M, hM, hof⟩ := build_manifest hfresh (fun s image h => compiledImage_eq h) hnone rfl
    fun _ h => h.elim
  obtain ⟨-, hentries⟩ := loadManifest_ok.mp hload
  obtain rfl := Option.some.inj (hM.symm.trans hentries)
  refine ⟨fun s hs => ?_, ?_⟩
  · obtain ⟨e, -, image, himage, -⟩ := related_right hok.entries (hplan ▸ hs)
    rw [himage, ← compiledImage_eq himage]
  · simpa only [false_or, hplan] using hof

/-- The slots that a campaign is for, by their entries in the manifest. -/
structure Chosen (code : Code) (c : Container) (a : CampaignArgs F) (metas : List Entry) :
    Prop where
  built : ∀ m ∈ metas, ∃ s ∈ code.slots, s.Known ∧ c.compile s = .wrote (compiledImage c s) ∧
    m = imageEntry s (compiledImage c s)
  /-- `--all` takes the slots of the code in the order of the matrix. -/
  all : a.all = true → metas.Pairwise KeyLt ∧
    ∀ s ∈ code.slots, imageEntry s (compiledImage c s) ∈ metas
  named : a.all = false → metas.map Entry.taskId = a.slots

theorem nodup_manifest {img : Slot → Image} {p : Slot → Prop} {entries : List Entry}
    (h : ManifestOf img p entries) : (Dict.keys (entries.map fun e => (e.taskId, e))).Nodup := by
  rw [Dict.keys, List.map_map, List.Nodup, List.pairwise_map]
  refine h.sorted.imp fun {e f} hlt heq => ?_
  obtain ⟨k, l, hk, hl, hlt⟩ := hlt
  rw [Function.comp_apply, Function.comp_apply] at heq
  dsimp only at heq
  rw [heq, hl] at hk
  exact hlt.ne' (Option.some.inj hk)

/-- The entries under their task ids. -/
theorem update_manifest {img : Slot → Image} {p : Slot → Prop} {entries : List Entry}
    (h : ManifestOf img p entries) : Dict.update [] (entries.map fun e => (e.taskId, e)) =
      entries.map fun e => (e.taskId, e) :=
  Dict.update_nil (nodup_manifest h)

theorem lookup_manifest {img : Slot → Image} {p : Slot → Prop} {entries : List Entry}
    (h : ManifestOf img p entries) {id : PyStr} {m : Entry} :
    (entries.map fun e => (e.taskId, e)).lookup id = some m ↔ m ∈ entries ∧ m.taskId = id := by
  constructor
  · intro hm
    obtain ⟨e, he, heq⟩ := List.mem_map.mp (Dict.mem_of_lookup_eq_some hm)
    obtain ⟨rfl, rfl⟩ := Prod.mk.inj heq
    exact ⟨he, rfl⟩
  · rintro ⟨hm, rfl⟩
    exact Dict.lookup_eq_some_of_mem (nodup_manifest h) (List.mem_map.mpr ⟨m, hm, rfl⟩)

omit [Runtime F] in
/-- The entries that are chosen from the manifest of a full build. -/
theorem metasOf_manifest {entries : List Entry}
    (hof : ManifestOf (compiledImage c) (· ∈ code.slots) entries)
    (hknown : ∀ s ∈ a.slots, s ∈ code.slots.map Slot.taskId) :
    ∃ metas, metasOf a (code.slots.map Slot.taskId) (entries.map fun e => (e.taskId, e)) =
        some metas ∧
      (a.all = true → metas = entries) ∧
      (a.all = false → List.Forall₂ (fun id m => m ∈ entries ∧ m.taskId = id) a.slots metas) := by
  rcases hall : a.all with - | -
  · have hsome : (a.slots.mapM fun s => (entries.map fun e => (e.taskId, e)).lookup s).isSome := by
      refine isSome_mapM.mpr fun id hid => ?_
      obtain ⟨s, hs, rfl⟩ := List.mem_map.mp (hknown id hid)
      have hmem := (hof.mem _).mpr ⟨s, hs, rfl⟩
      exact Option.isSome_of_mem ((lookup_manifest hof).mpr ⟨hmem, rfl⟩)
    obtain ⟨metas, hmetas⟩ := Option.isSome_iff_exists.mp hsome
    refine ⟨metas, ?_, fun h => absurd h Bool.false_ne_true, fun _ => ?_⟩
    · rw [metasOf, if_neg (by simp [hall]), hmetas]
    · exact related_imp (mapM_some.mp hmetas) fun _ _ m hm => (lookup_manifest hof).mp hm
  · have hfilter : (entries.map fun e => (e.taskId, e)).filter
        (fun e => e.1 ∈ code.slots.map Slot.taskId) = entries.map fun e => (e.taskId, e) := by
      refine List.filter_eq_self.mpr (List.forall_mem_map.mpr fun e he => ?_)
      obtain ⟨s, hs, rfl⟩ := (hof.mem e).mp he
      exact decide_eq_true (List.mem_map.mpr ⟨s, hs, rfl⟩)
    refine ⟨entries, ?_, fun _ => rfl, fun h => absurd h.symm Bool.false_ne_true⟩
    rw [metasOf, if_pos hall, hfilter, List.map_map]
    exact congrArg some (List.map_id _)

theorem Behind.slots_chosen {budgets : List (Dict ℤ)} {built : Root} {entries metas : List Entry}
    {tasks : List (List TaskSpec)} (hb : Behind code c S W root a budgets built entries metas tasks) :
    Chosen code c a metas := by
  -- without slots nothing is built, and only `--all` goes through
  by_cases hslots : code.slots = []
  · have hall : a.all = true := by
      have hnone : a.slots = [] := List.eq_nil_iff_forall_not_mem.mpr fun s hs => by
        have := hb.known s hs
        rw [hslots] at this
        exact absurd this List.not_mem_nil
      have hgiven := hb.given
      rw [hnone] at hgiven
      simpa using hgiven
    have hmetas := hb.chosen
    rw [metasOf, if_pos hall, hslots, Option.some.injEq] at hmetas
    have hnil : metas = [] := by
      rw [← hmetas]
      simp
    rw [hnil]
    exact ⟨by simp, fun _ => ⟨.nil, by simp [hslots]⟩,
      fun h => absurd (h.symm.trans hall) Bool.false_ne_true⟩
  obtain ⟨es, hbuild⟩ := hb.build
  obtain ⟨hcompiled, hof⟩ := manifest_fullBuild hslots hbuild hb.manifest
  have hentry : ∀ m ∈ entries, ∃ s ∈ code.slots, s.Known ∧
      c.compile s = .wrote (compiledImage c s) ∧ m = imageEntry s (compiledImage c s) := by
    intro m hm
    obtain ⟨s, hs, hme⟩ := (hof.mem m).mp hm
    exact ⟨s, hs, hof.known s hs, hcompiled s hs, hme⟩
  obtain ⟨metas', hmetas, hentries, hnamed⟩ := metasOf_manifest hof hb.known
  have hchosen := hb.chosen
  rw [update_manifest hof, hmetas] at hchosen
  obtain rfl := Option.some.inj hchosen
  rcases hall : a.all with - | -
  · have hrel := hnamed hall
    refine ⟨fun m hm => ?_, fun h => absurd (hall.symm.trans h) Bool.false_ne_true, fun _ => ?_⟩
    · obtain ⟨id, -, hm, -⟩ := related_left hrel hm
      exact hentry m hm
    · have hids := related_map (f := id) (g := Entry.taskId) hrel fun id m hm => hm.2.symm
      rw [← hids, List.map_id]
  · rw [hentries hall]
    exact ⟨hentry, fun _ => ⟨hof.sorted, fun s hs => (hof.mem _).mpr ⟨s, hs, rfl⟩⟩,
      fun h => absurd (h.symm.trans hall) Bool.false_ne_true⟩

theorem served_flatten {S : TaskSources} {metas : List Entry} {tasks : List (List TaskSpec)}
    [LawfulRuntime F] (hplain : ∀ m ∈ metas, m.Plain)
    (h : List.Forall₂ (fun m ts => slotTasks F S m = some ts) metas tasks) :
    List.Forall₂ (Served F S) (metas.flatMap Entry.origins) tasks.flatten := by
  induction h with
  | nil => exact .nil
  | cons hm _ ih =>
      obtain ⟨hp, hplain⟩ := List.forall_mem_cons.mp hplain
      exact List.rel_append (slotTasks_served hp hm) (ih hplain)

/-- What the command needs of the binaries: the functions of the slots that were asked for have
their instructions in them. -/
def Disassembled (code : Code) (c : Container) (S : TaskSources) (a : CampaignArgs F) : Prop :=
  ∀ s ∈ code.slots, (a.all = true ∨ s.taskId ∈ a.slots) →
    ∀ e ∈ (imageEntry s (compiledImage c s)).functions,
      (S.functionInsns s.path e.2.1 e.2.2).isSome = true

/-- The tasks of the chosen slots can be made when their functions were disassembled, and only
then. -/
theorem tasks_isSome {S : TaskSources} {entries metas : List Entry}
    (hof : ManifestOf (compiledImage c) (· ∈ code.slots) entries)
    (hknown : ∀ s ∈ a.slots, s ∈ code.slots.map Slot.taskId)
    (hmetas : metasOf a (code.slots.map Slot.taskId) (entries.map fun e => (e.taskId, e)) =
      some metas) :
    (metas.mapM (slotTasks F S)).isSome = true ↔ Disassembled code c S a := by
  obtain ⟨metas', hmetas', hentries, hnamed⟩ := metasOf_manifest hof hknown
  obtain rfl := Option.some.inj (hmetas.symm.trans hmetas')
  have hmem : ∀ m, m ∈ metas ↔ ∃ s ∈ code.slots, (a.all = true ∨ s.taskId ∈ a.slots) ∧
      m = imageEntry s (compiledImage c s) := by
    intro m
    rcases hall : a.all with - | -
    · simp only [Bool.false_eq_true, false_or]
      constructor
      · intro hm
        obtain ⟨id, hid, hm, rfl⟩ := related_left (hnamed hall) hm
        obtain ⟨s, hs, rfl⟩ := (hof.mem m).mp hm
        exact ⟨s, hs, hid, rfl⟩
      · rintro ⟨s, hs, hid, rfl⟩
        obtain ⟨m, hm, hin, hsame⟩ := related_right (hnamed hall) hid
        have hslot := (hof.mem _).mpr ⟨s, hs, rfl⟩
        -- task ids are unique in the manifest, so a name finds one entry
        have hone := (lookup_manifest hof).mpr ⟨hslot, rfl⟩
        obtain rfl := Option.some.inj (((lookup_manifest hof).mpr ⟨hin, hsame⟩).symm.trans hone)
        exact hm
    · rw [hentries hall, hof.mem]
      simp
  rw [isSome_mapM]
  constructor
  · intro h s hs hasked
    exact (slotTasks_isSome.mp (h _ ((hmem _).mpr ⟨s, hs, hasked, rfl⟩))).2
  · intro h m hm
    obtain ⟨s, hs, hasked, rfl⟩ := (hmem m).mp hm
    exact slotTasks_isSome.mpr ⟨(hof.known s hs).seed, h s hs hasked⟩

/-- What the arguments of the command must be. -/
structure CampaignArgs.Fine (code : Code) (W : Warranted F) (a : CampaignArgs F) : Prop where
  given : (!a.slots.isEmpty) ≠ a.all
  fresh : a.outTaken = false
  stems : (a.configs.map ConfigArg.stem).Nodup
  configs : ∀ cfg ∈ a.configs, ∃ b, readConfig W cfg = .ok b
  known : ∀ s ∈ a.slots, s ∈ code.slots.map Slot.taskId

theorem campaignMain_writes {built : Root} {es : List Entry} (hslots : code.slots ≠ [])
    (ha : a.Fine code W) (hbuild : build code c ⟨none, none⟩ root = (built, .ok es))
    (hinsns : Disassembled code c (S built) a) :
    ∃ files lines, campaignMain code c S W root a = .wrote files lines := by
  have hok := build_ok hbuild (by rwa [planOf_full rfl])
  obtain ⟨entries, hentries, -⟩ := hok.manifest
  have hload : loadManifest code.version built = .ok entries :=
    loadManifest_ok.mpr ⟨by rw [hok.stamp, Option.getD_some], hentries⟩
  obtain ⟨-, hof⟩ := manifest_fullBuild hslots hbuild hload
  obtain ⟨metas, hmetas, -⟩ := metasOf_manifest hof ha.known
  have htasks := (tasks_isSome hof ha.known hmetas).mpr hinsns
  obtain ⟨tasks, htasks⟩ := Option.isSome_iff_exists.mp htasks
  obtain ⟨budgets, hbudgets⟩ := exists_related ha.configs
  have hunknown : a.slots.filter (· ∉ code.slots.map Slot.taskId) = [] :=
    List.filter_eq_nil_iff.mpr fun s hs => by simpa using ha.known s hs
  unfold campaignMain
  rw [if_neg ha.given, if_neg (by simp [ha.fresh]), dif_pos ha.stems, mapM_ok.mpr hbudgets]
  simp only [hunknown, ne_eq, not_true_eq_false, if_false, hbuild, hload, update_manifest hof,
    hmetas, writeSlots, htasks]
  exact ⟨_, _, rfl⟩

end Written

/-! ### Results -/

/-- The sources of one version, with one seed. -/
def pkfmtCode : Code := ⟨py "2.1", [py "pkfmt"]⟩

/-- A host whose disassembler finds nothing, and whose seeds and instructions are empty. -/
def emptySources : TaskSources where
  readBinary _ := []
  functionInsns _ _ _ := some []
  seedSource _ := []
  version := py "2.1"
  functionMd _ _ := []
  programMd _ := []

/-- A config with the budgets that every run spends. -/
def runConfigArg : ConfigArg ZeroFloat where
  path := py "run.toml"
  stem := py "run"
  relative := py "../run.toml"
  data := .ok [(py "model", .str (py "qwen")),
    (py "budgets", .obj [(py "model", .int 4), (py "tool", .int 40), (py "probe", .int 20)])]
  nodup d b hd hb := by
    obtain rfl := Except.ok.inj hd
    obtain rfl := Json.obj.inj (Option.some.inj hb)
    decide

/-- Every slot, under one config. -/
def allArgs : CampaignArgs ZeroFloat where
  out := py "camp"
  outResolved := py "/camp"
  outName := py "camp"
  outTaken := false
  id := none
  configs := [runConfigArg]
  project := none
  slots := []
  all := true

/-- The package, finding nothing wrong. -/
def anyConfig : Warranted ZeroFloat := ⟨fun _ _ _ => none, fun _ _ _ _ => none⟩

theorem fine_allArgs : allArgs.Fine pkfmtCode anyConfig where
  given := by decide
  fresh := rfl
  stems := List.nodup_singleton _
  configs := List.forall_mem_singleton.mpr
    ⟨[(py "model", 4), (py "tool", 40), (py "probe", 20)], rfl⟩
  known := fun _ h => absurd h List.not_mem_nil

theorem build_pkfmtCode : ∃ built es,
    build pkfmtCode soundContainer ⟨none, none⟩ .empty = (built, .ok es) := by
  have hok : (build pkfmtCode soundContainer ⟨none, none⟩ .empty).2.toOption.isSome = true := by
    decide +kernel
  rcases hbuild : build pkfmtCode soundContainer ⟨none, none⟩ .empty with ⟨built, err | es⟩
  · rw [hbuild] at hok
    cases hok
  · exact ⟨built, es, rfl⟩

theorem allArgs_written : ∃ files lines, campaignMain pkfmtCode soundContainer
    (fun _ => emptySources) anyConfig .empty allArgs = .wrote files lines := by
  obtain ⟨built, es, hbuild⟩ := build_pkfmtCode
  exact campaignMain_writes (by decide) fine_allArgs hbuild fun _ _ _ _ _ => rfl

section Results

variable {F : Type} [Runtime F] {code : Code} {c : Container} {S : Root → TaskSources}
  {W : Warranted F} {root : Root} {a : CampaignArgs F} {files : Dict Bytes} {lines : List PyStr}

/-- **When the command writes.**  It writes a campaign when slots or `--all` are given but not
both, `--out` is free, the configs are good and have different names, the slots are those of the
code, the corpus builds, and the functions of the slots disassemble; and in no other case. -/
theorem campaign_written_iff (hslots : code.slots ≠ []) :
    (∃ files lines, campaignMain code c S W root a = .wrote files lines) ↔
      a.Fine code W ∧ ∃ built es, build code c ⟨none, none⟩ root = (built, .ok es) ∧
        Disassembled code c (S built) a := by
  constructor
  · rintro ⟨files, lines, h⟩
    obtain ⟨budgets, built, entries, metas, tasks, hb, -, -⟩ := campaignMain_wrote h
    obtain ⟨es, hbuild⟩ := hb.build
    obtain ⟨-, hof⟩ := manifest_fullBuild hslots hbuild hb.manifest
    refine ⟨⟨hb.given, hb.fresh, hb.stems, fun cfg hcfg => ?_, hb.known⟩, built, es, hbuild, ?_⟩
    · obtain ⟨b, -, hcfg⟩ := related_right (mapM_ok.mp hb.budgets) hcfg
      exact ⟨b, hcfg⟩
    · have hchosen := hb.chosen
      rw [update_manifest hof] at hchosen
      exact (tasks_isSome hof hb.known hchosen).mp (Option.isSome_of_mem hb.tasks)
  · rintro ⟨ha, built, es, hbuild, hinsns⟩
    exact campaignMain_writes hslots ha hbuild hinsns

/-- `--all` over one seed. -/
theorem campaign_written_all : ∃ files lines, campaignMain pkfmtCode soundContainer
    (fun _ => emptySources) anyConfig .empty allArgs = .wrote files lines := by
  obtain ⟨built, es, hbuild⟩ := build_pkfmtCode
  exact (campaign_written_iff (by decide)).mpr
    ⟨fine_allArgs, built, es, hbuild, fun _ _ _ _ _ => rfl⟩

/-- **The printed commands.**  Read by `shlex.split`, the lines below `next:` are the four
commands; and among them the allowance of each unit is the most that the planned runs can spend
of it, one run for each config and each task that was written. -/
theorem printed_commands (h : campaignMain code c S W root a = .wrote files lines) :
    ∃ budgets specs configs, a.configs.mapM (readConfig W) = .ok budgets ∧
      files = writeCampaign F a.campaignId specs configs (py "training") ∧
      (lines.drop 2).mapM shellSplit = some (nextCommands a.projectDir a.out a.campaignId
        (allowances budgets specs)) ∧
      ∀ u, IsGreatest {x : ℤ | ∃ spent, List.Forall₂ (fun r y => y ≤ runLimit u r)
        (budgets.product specs) spent ∧ spent.sum = x}
          (((allowances budgets specs).lookup u).getD 0) := by
  obtain ⟨budgets, built, entries, metas, tasks, hb, rfl, hlines⟩ := campaignMain_wrote h
  refine ⟨budgets, _, _, hb.budgets, rfl, ?_, ?_⟩
  · rw [hlines, mapM_some, List.forall₂_map_left_iff, List.forall₂_same]
    exact fun cmd _ => shellSplit_blanks (by decide) cmd
  · intro u
    apply allowances_greatest
    intro b hmem
    obtain ⟨cfg, -, hcfg⟩ := related_left (mapM_ok.mp hb.budgets) hmem
    exact nodup_readConfig hcfg

/-- The commands for every slot of one seed. -/
theorem printed_commands_all : ∃ (files : Dict Bytes) (lines : List PyStr)
    (budgets : List (Dict ℤ)) (specs : List TaskSpec),
    campaignMain pkfmtCode soundContainer (fun _ => emptySources) anyConfig .empty allArgs =
      .wrote files lines ∧
    (lines.drop 2).mapM shellSplit = some (nextCommands (pathIn (py "camp") (py "project"))
      (py "camp") (py "camp") (allowances budgets specs)) := by
  obtain ⟨files, lines, h⟩ := allArgs_written
  obtain ⟨budgets, specs, -, -, -, hlines, -⟩ := printed_commands h
  exact ⟨files, lines, budgets, specs, h, hlines⟩

/-- **From the corpus to the readers of the tasks.**  Let the command write a campaign, and let a
disk have what it wrote.  Then the tasks are those of the slots that were asked for, each with its
functions first and its program last; what the checkers and the operations read in a task is the
function, the seed and the binary that it was made for; no two tasks share an id unless a slot was
asked for twice; and the files read back as this campaign, if its id and its configs are plain. -/
theorem campaign_serves [LawfulRuntime F]
    (hsized : ∀ s image, c.compile s = .wrote image → image.Sized)
    (h : campaignMain code c S W root a = .wrote files lines) {disk : Disk}
    (hdisk : Holds disk files) :
    ∃ (built : Root) (metas : List Entry) (specs : List TaskSpec) (configs : Mapping PyStr),
      Chosen code c a metas ∧
      List.Forall₂ (Served F (S built)) (metas.flatMap Entry.origins) specs ∧
      ((specs.map TaskSpec.id).Nodup ↔ (metas.map Entry.taskId).Nodup) ∧
      configs.entries = (a.configs.map fun cfg => (cfg.stem, cfg.relative)) ∧
      loadCampaign disk = if BmpCampaign a.campaignId specs configs (py "training") then
        some ⟨a.campaignId, specs.map fun t => (t, py "training"), configs⟩ else none := by
  obtain ⟨budgets, built, entries, metas, tasks, hb, rfl, -⟩ := campaignMain_wrote h
  have hchosen := hb.slots_chosen
  have hplain : ∀ m ∈ metas, m.Plain := by
    intro m hm
    obtain ⟨s, -, hknown, hcompile, rfl⟩ := hchosen.built m hm
    exact plain_imageEntry hknown (hsized s _ hcompile)
  have htasks := mapM_some.mp hb.tasks
  have hserved := served_flatten hplain htasks
  have hascii : ∀ t ∈ tasks.flatten, t.Ascii := by
    intro t ht
    obtain ⟨ts, hts, ht⟩ := List.mem_flatten.mp ht
    obtain ⟨m, hm, hslot⟩ := related_left htasks hts
    exact slotTasks_ascii (hplain m hm) hslot t ht
  have hids : (metas.flatMap Entry.origins).map TaskOrigin.id = tasks.flatten.map TaskSpec.id :=
    related_map hserved fun o t ho => (Served.id_eq ho).symm
  refine ⟨built, metas, tasks.flatten, configPaths a.configs hb.stems, hchosen, hserved, ?_, rfl,
    loadCampaign_writeCampaign hdisk hascii⟩
  rw [← hids]
  exact nodup_ids_iff hplain

/-- The tasks for every slot of one seed. -/
theorem campaign_serves_all : ∃ (files : Dict Bytes) (lines : List PyStr) (metas : List Entry)
    (specs : List TaskSpec),
    campaignMain pkfmtCode soundContainer (fun _ => emptySources) anyConfig .empty allArgs =
      .wrote files lines ∧
    Chosen pkfmtCode soundContainer allArgs metas ∧
    List.Forall₂ (Served ZeroFloat emptySources) (metas.flatMap Entry.origins) specs := by
  obtain ⟨files, lines, h⟩ := allArgs_written
  have hsized : ∀ s image, soundContainer.compile s = .wrote image → image.Sized := by
    rintro s image himage
    obtain rfl := CompileOutcome.wrote.inj himage
    exact List.forall_mem_singleton.mpr (by decide)
  have hfiles : files.keys.Nodup := by
    obtain ⟨_, _, _, _, _, hb, rfl, -⟩ := campaignMain_wrote h
    exact nodup_writeCampaign _ _ _ _ _
  obtain ⟨-, metas, specs, -, hchosen, hserved, -⟩ :=
    campaign_serves hsized h (holds_lookup hfiles)
  exact ⟨files, lines, metas, specs, h, hchosen, hserved⟩

end Results

end ReSchema
