/-
ReSchema/RegradeEvidence.lean

What `_evidence` makes of a recorded check, for any ledger.

The evidence is followed as far as it goes: the inputs of the check and the
submission that they name (`Submitted`), the files that the submission claims
(`Captures`), and the verdict, the seeds and the jobs of the completion
(`Exposes`).  Evidence that ends early is refused or cannot be replayed, and the
check has a row that says so.

`Raises` has the places where the code does neither.  The recorded bytes are
JSON of any shape there, and the code takes them for a dictionary, for something
with a length or for a list of jobs; the `AttributeError`, the `TypeError` or
the `KeyError` that follows is not among the exceptions that `regrade` catches.

  * `evidence_ok_iff`: `_evidence` returns just what the evidence exposes;
  * `evidence_escapes_iff`: it raises past `regrade` in just these places.
-/
import ReSchema.Regrade

namespace ReSchema

open Py

/-! ### Steps that may fail -/

section Steps

variable {ε α β : Type}

theorem bind_ok {x : Except ε α} {f : α → Except ε β} {b : β} :
    x >>= f = .ok b ↔ ∃ a, x = .ok a ∧ f a = .ok b := by
  cases x <;> simp [bind, Except.bind]

theorem bind_error {x : Except ε α} {f : α → Except ε β} {e : ε} :
    x >>= f = .error e ↔ x = .error e ∨ ∃ a, x = .ok a ∧ f a = .error e := by
  cases x <;> simp [bind, Except.bind]

/-- A step and what follows it: the step fails, or the rest goes on. -/
theorem bind_cases {x : Except ε α} {f : α → Except ε β} {r : Except ε β} (h : x >>= f = r) :
    (∃ e, x = .error e ∧ r = .error e) ∨ ∃ a, x = .ok a ∧ f a = r := by
  cases x with
  | error e => exact .inl ⟨e, rfl, h.symm⟩
  | ok a => exact .inr ⟨a, rfl, h⟩

theorem map_ok {x : Except ε α} {f : α → β} {b : β} :
    x.map f = .ok b ↔ ∃ a, x = .ok a ∧ f a = b := by
  cases x <;> simp [Except.map]

theorem map_error {x : Except ε α} {f : α → β} {e : ε} : x.map f = .error e ↔ x = .error e := by
  cases x <;> simp [Except.map]

/-- What no step raises, the loop does not raise. -/
theorem foldlM_ne_error {f : β → α → Except ε β} {e : ε} (h : ∀ b a, f b a ≠ .error e)
    (as : List α) (b : β) : as.foldlM f b ≠ .error e := by
  induction as generalizing b with
  | nil => exact nofun
  | cons a as ih =>
      rw [List.foldlM_cons, ne_eq, bind_error, not_or]
      exact ⟨h b a, fun ⟨b', _, hrest⟩ => ih b' hrest⟩

end Steps

/-! ### Parts of the evidence -/

/-- What an input of a check is by its name: the submission of that number, a file of the task that
the worker sees, or one that it does not see. -/
inductive Role
  | submission (sequence : ℕ)
  | input (file : PyStr)
  | priv (file : PyStr)

section Roles

variable (F : Type) [Runtime F]

def roleOf (name : PyStr) : Option Role := do
  let m ← matchEvidence F name
  let p := partition (py "/") m.2
  if m.2 = py "submission.json" then (intDecimal F m.1).map .submission
  else if p.1 = py "input" ∧ p.2 ≠ [] then some (.input p.2)
  else if p.1 = py "private" ∧ p.2 ≠ [] then some (.priv p.2)
  else none

/-- The submission that an input is, by its number. -/
def targetOf (input : PyStr × Ref) : Option (ℕ × Ref) :=
  match roleOf F input.1 with
  | some (.submission n) => some (n, input.2)
  | _ => none

/-- The file that an input is. -/
def inputOf (input : PyStr × Ref) : Option (PyStr × Ref) :=
  match roleOf F input.1 with
  | some (.input file) => some (file, input.2)
  | _ => none

def privOf (input : PyStr × Ref) : Option (PyStr × Ref) :=
  match roleOf F input.1 with
  | some (.priv file) => some (file, input.2)
  | _ => none

end Roles

/-- The artifact has the content. -/
def Ledger.Holds (ledger : Ledger) (p : PyStr × Ref) (q : PyStr × Bytes) : Prop :=
  p.1 = q.1 ∧ ledger.read p.2 = .ok q.2

/-- The artifact has the value. -/
def Ledger.HoldsJson {F : Type} [Runtime F] (ledger : Ledger) (ref : Ref) (v : Json F) : Prop :=
  ∃ b, ledger.read ref = .ok b ∧ loads b = some v

/-- The artifact is nested deeper than `json.loads` goes. -/
def Ledger.TooDeep (F : Type) [Runtime F] (host : Host) (ledger : Ledger) (ref : Ref) : Prop :=
  ∃ b, ledger.read ref = .ok b ∧ (loads b : Option (Json F)) = none ∧ host.tooDeep b = true

/-- The files of the task that a check had, and the submission that it was about. -/
structure Trail where
  inputs : Dict Bytes
  priv : Dict Bytes
  sequence : ℕ
  target : Ref
  observation : Observation

/-- Every input of the check has a role and can be read, and the last submission among them was
observed. -/
structure Submitted (F : Type) [Runtime F] (ledger : Ledger) (op : Operation) (t : Trail) : Prop where
  named : ∀ input ∈ op.inputs, (roleOf F input.1).isSome
  inputs : List.Forall₂ ledger.Holds (op.inputs.filterMap (inputOf F)) t.inputs
  priv : List.Forall₂ ledger.Holds (op.inputs.filterMap (privOf F)) t.priv
  target : (op.inputs.filterMap (targetOf F)).getLast? = some (t.sequence, t.target)
  observed : observationAt ledger t.sequence = some t.observation

/-- The name of a file of the submission. -/
def candidateFile (input : PyStr × Ref) : PyStr := (partition (py "/candidate/") input.1).2

/-- The submission claims just the observed files with their digests, and all of them but the notes
can be read. -/
structure Captures {F : Type} (ledger : Ledger) (claimed : Json F) (inputs : Dict Ref)
    (files : Dict Bytes) : Prop where
  digests : ∀ input ∈ inputs, claimed.get? (candidateFile input) = some (.str input.2.digest)
  files : List.Forall₂ ledger.Holds
    ((inputs.map fun input => (candidateFile input, input.2)).filter fun p => p.1 ∉ noteFiles) files
  length : Json.len? claimed = some inputs.length

/-- The completion has a verdict, and what comes with it. -/
def Completed (op : Operation) (verdict seeds jobs : Ref) : Prop :=
  ∃ artifacts, op.artifacts = some artifacts ∧ artifacts.lookup (py "verdict.json") = some verdict ∧
    artifacts.lookup (py "seeds.json") = some seeds ∧ artifacts.lookup (py "jobs.json") = some jobs

/-- The jobs have these images. -/
def Imaged {F : Type} (jobs : Json F) (images : List (Json F)) : Prop :=
  ∃ items, Json.items? jobs = some items ∧ List.Forall₂ (fun j image =>
    j.get? (py "image") = some image ∧ Json.hashable image = true) items images

section Evidence

variable {F : Type} [Runtime F]

/-- The evidence holds together up to the completion. -/
structure Upheld (ledger : Ledger) (op : Operation) (t : Trail) (claimed : Json F)
    (files : Dict Bytes) : Prop where
  submitted : Submitted F ledger op t
  claims : ledger.HoldsJson t.target claimed
  captures : Captures ledger claimed t.observation.inputs files

/-- **The evidence, exposed.** -/
def Exposes (ledger : Ledger) (op : Operation) (ev : Evidence F) : Prop :=
  ∃ (t : Trail) (claimed jobs : Json F) (files : Dict Bytes) (v s j : Ref),
    Upheld ledger op t claimed files ∧ Completed op v s j ∧
    ledger.HoldsJson v ev.verdict ∧ ledger.HoldsJson s ev.seeds ∧ ledger.HoldsJson j jobs ∧
    Imaged jobs ev.images ∧ ev.candidate = Dict.update [] files ∧
    ev.inputs = Dict.update [] t.inputs ∧ ev.priv = Dict.update [] t.priv

variable (F) in
/-- **Evidence that raises** an exception that `regrade` does not catch. -/
inductive Raises (host : Host) (ledger : Ledger) (op : Operation) : Prop
  /-- `json.loads` on the submission. -/
  | submission {t} : Submitted F ledger op t → ledger.TooDeep F host t.target → Raises host ledger op
  /-- `claimed.get(file)` where the submission is no dictionary. -/
  | noGet {t} {claimed : Json F} : Submitted F ledger op t → ledger.HoldsJson t.target claimed →
      claimed.obj? = none → t.observation.inputs ≠ [] → Raises host ledger op
  /-- `len(claimed)` where the submission has no length. -/
  | noLen {t} {claimed : Json F} : Submitted F ledger op t → ledger.HoldsJson t.target claimed →
      Json.len? claimed = none → Raises host ledger op
  /-- `op.completion.observation` where there is no completion. -/
  | noCompletion {t} {claimed : Json F} {files} : Upheld ledger op t claimed files →
      op.artifacts = none → Raises host ledger op
  /-- `json.loads` on the verdict. -/
  | verdict {t} {claimed : Json F} {files v s j} : Upheld ledger op t claimed files →
      Completed op v s j → ledger.TooDeep F host v → Raises host ledger op
  /-- `json.loads` on the seeds. -/
  | seeds {t} {claimed verdict : Json F} {files v s j} : Upheld ledger op t claimed files →
      Completed op v s j → ledger.HoldsJson v verdict → ledger.TooDeep F host s →
      Raises host ledger op
  /-- `json.loads` on the jobs. -/
  | jobs {t} {claimed verdict seeds : Json F} {files v s j} : Upheld ledger op t claimed files →
      Completed op v s j → ledger.HoldsJson v verdict → ledger.HoldsJson s seeds →
      ledger.TooDeep F host j → Raises host ledger op
  /-- `j["image"]` for a job that is no dictionary or has none, or a set of such images. -/
  | noImage {t} {claimed verdict seeds jobs : Json F} {files v s j} :
      Upheld ledger op t claimed files → Completed op v s j → ledger.HoldsJson v verdict →
      ledger.HoldsJson s seeds → ledger.HoldsJson j jobs → (∀ images, ¬ Imaged jobs images) →
      Raises host ledger op

/-! ### Reading -/

variable {host : Host} {ledger : Ledger}

theorem readArtifact_ok_iff {ref : Ref} {b : Bytes} :
    readArtifact ledger ref = .ok b ↔ ledger.read ref = .ok b := by
  rw [readArtifact]
  cases ledger.read ref <;> simp

theorem readArtifact_caught (ref : Ref) : readArtifact ledger ref ≠ .error .escapes := by
  rw [readArtifact]
  cases ledger.read ref <;> simp

theorem orEscape_ok_iff {α : Type} {o : Option α} {a : α} : orEscape o = .ok a ↔ o = some a := by
  cases o <;> simp [orEscape]

theorem orEscape_error_iff {α : Type} {o : Option α} {e : Stop} :
    orEscape o = .error e ↔ o = none ∧ e = .escapes := by
  cases o <;> simp [orEscape, eq_comm]

theorem readJson_ok_iff {ref : Ref} {v : Json F} :
    readJson host ledger ref = .ok v ↔ ledger.HoldsJson ref v := by
  rw [readJson, bind_ok]
  refine exists_congr fun b => and_congr readArtifact_ok_iff ?_
  rcases loads b with - | w <;> simp

theorem readJson_escapes_iff {ref : Ref} :
    (readJson host ledger ref : Except Stop (Json F)) = .error .escapes ↔
      ledger.TooDeep F host ref := by
  rw [readJson, bind_error, or_iff_right (readArtifact_caught ref)]
  refine exists_congr fun b => and_congr readArtifact_ok_iff ?_
  rcases (loads b : Option (Json F)) with - | w
  · by_cases h : host.tooDeep b = true <;> simp [h]
  · simp

/-! ### The inputs -/

variable (ledger) in
/-- One input, by its role. -/
theorem gatherInput_role (acc : Gathered) (input : PyStr × Ref) : ∃ text,
    gatherInput ledger F acc input =
      match roleOf F input.1 with
      | some (.submission n) => .ok { acc with target := some (n, input.2) }
      | some (.input file) =>
          (readArtifact ledger input.2).map fun b => { acc with inputs := acc.inputs.set file b }
      | some (.priv file) =>
          (readArtifact ledger input.2).map fun b => { acc with priv := acc.priv.set file b }
      | none => .error (.refused text) := by
  rw [gatherInput, roleOf]
  rcases matchEvidence F input.1 with - | m
  · exact ⟨_, rfl⟩
  dsimp only [Option.getD_some, Option.bind_eq_bind, Option.bind_some]
  by_cases hsub : m.2 = py "submission.json"
  · rw [if_pos hsub, if_pos hsub]
    rcases intDecimal F m.1 with - | n
    · exact ⟨_, rfl⟩
    · exact ⟨[], rfl⟩
  · rw [if_neg hsub, if_neg hsub]
    split_ifs
    · exact ⟨[], rfl⟩
    · exact ⟨[], rfl⟩
    · exact ⟨_, rfl⟩

theorem gatherInput_caught (acc : Gathered) (input : PyStr × Ref) :
    gatherInput ledger F acc input ≠ .error .escapes := by
  obtain ⟨text, h⟩ := gatherInput_role (F := F) ledger acc input
  rw [h]
  rcases roleOf F input.1 with - | n | file | file
  · simp
  · simp
  · exact fun he => readArtifact_caught input.2 (map_error.mp he)
  · exact fun he => readArtifact_caught input.2 (map_error.mp he)

/-- All inputs: each has a role, the files are there, and the last submission is the target. -/
theorem gather_ok_iff {inputs : Dict Ref} {acc g : Gathered} :
    inputs.foldlM (gatherInput ledger F) acc = .ok g ↔
      (∀ input ∈ inputs, (roleOf F input.1).isSome) ∧
      ∃ ins privs, List.Forall₂ ledger.Holds (inputs.filterMap (inputOf F)) ins ∧
        List.Forall₂ ledger.Holds (inputs.filterMap (privOf F)) privs ∧
        g = ⟨acc.inputs.update ins, acc.priv.update privs,
          (inputs.filterMap (targetOf F)).getLast?.or acc.target⟩ := by
  induction inputs generalizing acc with
  | nil =>
      constructor
      · intro h
        cases h
        exact ⟨by simp, [], [], .nil, .nil, rfl⟩
      · rintro ⟨-, ins, privs, hins, hprivs, rfl⟩
        cases hins
        cases hprivs
        rfl
  | cons input inputs ih =>
      obtain ⟨text, hstep⟩ := gatherInput_role (F := F) ledger acc input
      rw [List.foldlM_cons, bind_ok, hstep, List.forall_mem_cons]
      rcases hrole : roleOf F input.1 with - | n | file | file
      · simp
      · -- a submission, the last one so far
        have hi : inputOf F input = none := by rw [inputOf, hrole]
        have hp : privOf F input = none := by rw [privOf, hrole]
        have ht : targetOf F input = some (n, input.2) := by rw [targetOf, hrole]
        rw [List.filterMap_cons_none hi, List.filterMap_cons_none hp, List.filterMap_cons_some ht,
          List.getLast?_cons, Option.some_or, ← Option.or_some]
        simp only [Except.ok.injEq, exists_eq_left', ih, Option.isSome_some, true_and]
      · -- a file that the worker sees
        have hi : inputOf F input = some (file, input.2) := by rw [inputOf, hrole]
        have hp : privOf F input = none := by rw [privOf, hrole]
        have ht : targetOf F input = none := by rw [targetOf, hrole]
        rw [List.filterMap_cons_some hi, List.filterMap_cons_none hp, List.filterMap_cons_none ht]
        simp only [map_ok, readArtifact_ok_iff, ih, Option.isSome_some, true_and]
        constructor
        · rintro ⟨_, ⟨b, hread, rfl⟩, hall, ins, privs, hins, hprivs, rfl⟩
          exact ⟨hall, (file, b) :: ins, privs, .cons ⟨rfl, hread⟩ hins, hprivs, rfl⟩
        · rintro ⟨hall, files, privs, hfiles, hprivs, rfl⟩
          obtain ⟨⟨file', b⟩, ins, ⟨rfl, hread⟩, hins, rfl⟩ := List.forall₂_cons_left_iff.mp hfiles
          exact ⟨_, ⟨b, hread, rfl⟩, hall, ins, privs, hins, hprivs, rfl⟩
      · -- a file that the worker does not see
        have hi : inputOf F input = none := by rw [inputOf, hrole]
        have hp : privOf F input = some (file, input.2) := by rw [privOf, hrole]
        have ht : targetOf F input = none := by rw [targetOf, hrole]
        rw [List.filterMap_cons_none hi, List.filterMap_cons_some hp, List.filterMap_cons_none ht]
        simp only [map_ok, readArtifact_ok_iff, ih, Option.isSome_some, true_and]
        constructor
        · rintro ⟨_, ⟨b, hread, rfl⟩, hall, ins, privs, hins, hprivs, rfl⟩
          exact ⟨hall, ins, (file, b) :: privs, hins, .cons ⟨rfl, hread⟩ hprivs, rfl⟩
        · rintro ⟨hall, ins, files, hins, hfiles, rfl⟩
          obtain ⟨⟨file', b⟩, privs, ⟨rfl, hread⟩, hprivs, rfl⟩ :=
            List.forall₂_cons_left_iff.mp hfiles
          exact ⟨_, ⟨b, hread, rfl⟩, hall, ins, privs, hins, hprivs, rfl⟩

/-! ### The files of the submission -/

/-- One file, which is kept unless it is a note. -/
theorem captureFile_ok_iff {claimed : Json F} {acc acc' : Dict Bytes} {input : PyStr × Ref} :
    captureFile ledger claimed acc input = .ok acc' ↔
      claimed.get? (candidateFile input) = some (.str input.2.digest) ∧
      if candidateFile input ∈ noteFiles then acc' = acc
      else ∃ b, ledger.read input.2 = .ok b ∧ acc' = acc.set (candidateFile input) b := by
  rw [captureFile, bind_ok]
  cases claimed with
  | obj d =>
      simp only [Json.obj?, orEscape, Except.ok.injEq, exists_eq_left', ← candidateFile.eq_def,
        Json.get?]
      have hdigest : ((d.lookup (candidateFile input)).bind Json.str? = some input.2.digest) ↔
          d.lookup (candidateFile input) = some (.str input.2.digest) := by
        rcases d.lookup (candidateFile input) with - | v
        · simp
        · cases v <;> simp [Json.str?]
      by_cases h : d.lookup (candidateFile input) = some (.str input.2.digest)
      · rw [if_neg (not_not.mpr (hdigest.mpr h))]
        rw [and_iff_right h]
        split_ifs
        · rw [Except.ok.injEq, eq_comm]
        · rw [map_ok]
          exact exists_congr fun b => and_congr readArtifact_ok_iff eq_comm
      · rw [if_pos (mt hdigest.mp h)]
        simp [h]
  | _ => simp [Json.obj?, orEscape, Json.get?]

theorem captureFile_escapes_iff {claimed : Json F} {acc : Dict Bytes} {input : PyStr × Ref} :
    captureFile ledger claimed acc input = .error .escapes ↔ claimed.obj? = none := by
  rw [captureFile, bind_error, orEscape_error_iff, and_iff_left rfl, or_iff_left]
  rintro ⟨d, -, h⟩
  split_ifs at h
  · cases h
  · exact readArtifact_caught input.2 (map_error.mp h)

/-- All files. -/
theorem capture_ok_iff {claimed : Json F} {inputs : Dict Ref} {acc c : Dict Bytes} :
    inputs.foldlM (captureFile ledger claimed) acc = .ok c ↔
      (∀ input ∈ inputs, claimed.get? (candidateFile input) = some (.str input.2.digest)) ∧
      ∃ files, List.Forall₂ ledger.Holds ((inputs.map fun input => (candidateFile input, input.2)).filter
        fun p => p.1 ∉ noteFiles) files ∧ c = acc.update files := by
  induction inputs generalizing acc with
  | nil =>
      constructor
      · intro h
        cases h
        exact ⟨by simp, [], .nil, rfl⟩
      · rintro ⟨-, files, hfiles, rfl⟩
        cases hfiles
        rfl
  | cons input inputs ih =>
      rw [List.foldlM_cons, bind_ok, List.forall_mem_cons, List.map_cons]
      simp only [captureFile_ok_iff, ih]
      -- a note is checked like the others, and left out
      by_cases hnote : candidateFile input ∈ noteFiles
      · rw [List.filter_cons_of_neg (by simpa using hnote)]
        simp only [if_pos hnote]
        constructor
        · rintro ⟨_, ⟨hdigest, rfl⟩, hall, hfiles⟩
          exact ⟨⟨hdigest, hall⟩, hfiles⟩
        · rintro ⟨⟨hdigest, hall⟩, hfiles⟩
          exact ⟨_, ⟨hdigest, rfl⟩, hall, hfiles⟩
      · rw [List.filter_cons_of_pos (by simpa using hnote)]
        simp only [if_neg hnote]
        constructor
        · rintro ⟨_, ⟨hdigest, b, hread, rfl⟩, hall, files, hfiles, rfl⟩
          exact ⟨⟨hdigest, hall⟩, (_, b) :: files, .cons ⟨rfl, hread⟩ hfiles, rfl⟩
        · rintro ⟨⟨hdigest, hall⟩, files, hfiles, rfl⟩
          obtain ⟨⟨file, b⟩, files, ⟨rfl, hread⟩, hrest, rfl⟩ :=
            List.forall₂_cons_left_iff.mp hfiles
          exact ⟨_, ⟨hdigest, b, hread, rfl⟩, hall, files, hrest, rfl⟩

theorem capture_escapes_iff {claimed : Json F} {inputs : Dict Ref} {acc : Dict Bytes} :
    inputs.foldlM (captureFile ledger claimed) acc = .error .escapes ↔
      claimed.obj? = none ∧ inputs ≠ [] := by
  rcases hclaimed : claimed.obj? with - | d
  · rcases inputs with - | ⟨input, inputs⟩
    · exact iff_of_false nofun nofun
    · rw [List.foldlM_cons, bind_error, captureFile_escapes_iff]
      simp [hclaimed]
  · refine iff_of_false (foldlM_ne_error (fun acc input h => ?_) inputs acc) nofun
    rw [captureFile_escapes_iff, hclaimed] at h
    cases h

omit [Runtime F] in
theorem jobImages_some {jobs : Json F} {images : List (Json F)} :
    jobImages jobs = some images ↔ Imaged jobs images := by
  have hjob : ∀ j image : Json F, (do
        let image ← j.get? (py "image")
        if Json.hashable image then some image else none) = some image ↔
      j.get? (py "image") = some image ∧ Json.hashable image = true := by
    intro j image
    rcases j.get? (py "image") with - | i
    · simp
    · by_cases h : Json.hashable i = true
      · simp only [Option.bind_eq_bind, Option.bind_some, if_pos h, Option.some.injEq]
        exact ⟨fun he => ⟨he, he ▸ h⟩, And.left⟩
      · simp only [Option.bind_eq_bind, Option.bind_some, if_neg h, Option.some.injEq]
        exact iff_of_false nofun fun he => h (he.1 ▸ he.2)
  rw [jobImages, Option.bind_eq_bind, Option.bind_eq_some_iff]
  refine exists_congr fun items => and_congr_right fun _ => mapM_some.trans ?_
  exact ⟨fun h => h.imp fun j image => (hjob j image).mp,
    fun h => h.imp fun j image => (hjob j image).mpr⟩

/-! ### The whole evidence -/

/-- The inputs as `_evidence` gathers them. -/
theorem Submitted.gather {op : Operation} {t : Trail} (h : Submitted F ledger op t) :
    op.inputs.foldlM (gatherInput ledger F) ⟨[], [], none⟩ =
      .ok ⟨Dict.update [] t.inputs, Dict.update [] t.priv, some (t.sequence, t.target)⟩ := by
  rw [gather_ok_iff, h.target]
  exact ⟨h.named, _, _, h.inputs, h.priv, rfl⟩

theorem submitted_of {op : Operation} {g : Gathered} {ref : Ref} {o : Observation}
    (hg : op.inputs.foldlM (gatherInput ledger F) ⟨[], [], none⟩ = .ok g)
    (ho : (g.target.bind fun t => (observationAt ledger t.1).map fun o => (t.2, o)) = some (ref, o)) :
    ∃ t, Submitted F ledger op t ∧ t.target = ref ∧ t.observation = o ∧
      g.inputs = Dict.update [] t.inputs ∧ g.priv = Dict.update [] t.priv := by
  obtain ⟨hnamed, ins, privs, hins, hprivs, rfl⟩ := gather_ok_iff.mp hg
  obtain ⟨⟨n, ref'⟩, htarget, ho⟩ := Option.bind_eq_some_iff.mp ho
  obtain ⟨o', hobserved, hpair⟩ := Option.map_eq_some_iff.mp ho
  cases hpair
  rw [Option.or_none] at htarget
  exact ⟨⟨ins, privs, n, _, _⟩, ⟨hnamed, hins, hprivs, htarget, hobserved⟩, rfl, rfl, rfl, rfl⟩

/-- The files of the candidate. -/
theorem Captures.capture {claimed : Json F} {inputs : Dict Ref} {files : Dict Bytes}
    (h : Captures ledger claimed inputs files) :
    inputs.foldlM (captureFile ledger claimed) [] = .ok (Dict.update [] files) :=
  capture_ok_iff.mpr ⟨h.digests, files, h.files, rfl⟩

variable (host) in
/-- What is left of `_evidence` where the evidence holds together so far. -/
theorem evidence_upheld {op : Operation} {t : Trail} {claimed : Json F} {files : Dict Bytes}
    (h : Upheld ledger op t claimed files) :
    evidence host ledger F op = (do
      let artifacts ← orEscape op.artifacts
      match artifacts.lookup (py "verdict.json") with
      | none => .error (.unreplayable (py "the recorded check has no verdict"))
      | some verdictRef =>
          match artifacts.lookup (py "seeds.json"), artifacts.lookup (py "jobs.json") with
          | some seedsRef, some jobsRef =>
              let verdict ← readJson host ledger verdictRef
              let seeds ← readJson host ledger seedsRef
              let jobs : Json F ← readJson host ledger jobsRef
              let images ← orEscape (jobImages jobs)
              .ok ⟨Dict.update [] files, Dict.update [] t.inputs, Dict.update [] t.priv, verdict,
                seeds, images⟩
          | _, _ => .error (.refused (py "verdict recorded without " ++
              pyRepr (strs (missingChannels artifacts) : Json F)))) := by
  rw [evidence.eq_def, h.submitted.gather]
  simp only [bind, Except.bind, Option.bind_some, h.submitted.observed, Option.map_some,
    readJson_ok_iff.mpr h.claims, h.captures.capture, orEscape_ok_iff.mpr h.captures.length, ne_eq,
    not_true_eq_false, if_false] <;> rfl

/-- One walk through `_evidence`, step by step: what it ends with says how far the evidence went. -/
theorem evidence_spec {op : Operation} {r : Except Stop (Evidence F)}
    (h : evidence host ledger F op = r) :
    (∀ ev, r = .ok ev → Exposes ledger op ev) ∧ (r = .error .escapes → Raises F host ledger op) := by
  rw [evidence.eq_def] at h
  -- the inputs and the submission
  rcases bind_cases h with ⟨e, he, rfl⟩ | ⟨g, hg, h⟩
  · exact ⟨nofun, fun hr => absurd (Except.error.inj hr ▸ he) (foldlM_ne_error gatherInput_caught _ _)⟩
  rcases ho : (g.target.bind fun t => (observationAt ledger t.1).map fun o => (t.2, o))
    with - | ⟨ref, o⟩
  · rw [ho] at h
    obtain rfl := h
    exact ⟨nofun, nofun⟩
  rw [ho] at h
  obtain ⟨t, hsub, rfl, rfl, hins, hprivs⟩ := submitted_of hg ho
  -- the files of the candidate
  rcases bind_cases h with ⟨e, he, rfl⟩ | ⟨claimed, hclaims, h⟩
  · exact ⟨nofun, fun hr => .submission hsub (readJson_escapes_iff.mp (Except.error.inj hr ▸ he))⟩
  have hclaims := readJson_ok_iff.mp hclaims
  rcases bind_cases h with ⟨e, he, rfl⟩ | ⟨c, hcapture, h⟩
  · refine ⟨nofun, fun hr => ?_⟩
    obtain ⟨hobj, hne⟩ := capture_escapes_iff.mp (Except.error.inj hr ▸ he)
    exact .noGet hsub hclaims hobj hne
  obtain ⟨hdigests, files, hfiles, rfl⟩ := capture_ok_iff.mp hcapture
  rcases bind_cases h with ⟨e, he, rfl⟩ | ⟨n, hlen, h⟩
  · exact ⟨nofun, fun _ => .noLen hsub hclaims (orEscape_error_iff.mp he).1⟩
  split_ifs at h with hn
  · obtain rfl := h
    exact ⟨nofun, nofun⟩
  obtain rfl := not_not.mp hn
  have hup : Upheld ledger op t claimed files :=
    ⟨hsub, hclaims, hdigests, hfiles, orEscape_ok_iff.mp hlen⟩
  -- the verdict and what comes with it
  rcases bind_cases h with ⟨e, he, rfl⟩ | ⟨artifacts, hartifacts, h⟩
  · exact ⟨nofun, fun _ => .noCompletion hup (orEscape_error_iff.mp he).1⟩
  split at h
  · obtain rfl := h
    exact ⟨nofun, nofun⟩
  next v hv =>
  split at h
  · next s j hs hj =>
    have hcompleted : Completed op v s j := ⟨artifacts, orEscape_ok_iff.mp hartifacts, hv, hs, hj⟩
    rcases bind_cases h with ⟨e, he, rfl⟩ | ⟨verdict, hverdict, h⟩
    · exact ⟨nofun, fun hr =>
        .verdict hup hcompleted (readJson_escapes_iff.mp (Except.error.inj hr ▸ he))⟩
    have hverdict := readJson_ok_iff.mp hverdict
    rcases bind_cases h with ⟨e, he, rfl⟩ | ⟨seeds, hseeds, h⟩
    · exact ⟨nofun, fun hr =>
        .seeds hup hcompleted hverdict (readJson_escapes_iff.mp (Except.error.inj hr ▸ he))⟩
    have hseeds := readJson_ok_iff.mp hseeds
    rcases bind_cases h with ⟨e, he, rfl⟩ | ⟨jobs, hjobs, h⟩
    · exact ⟨nofun, fun hr =>
        .jobs hup hcompleted hverdict hseeds (readJson_escapes_iff.mp (Except.error.inj hr ▸ he))⟩
    have hjobs := readJson_ok_iff.mp hjobs
    rcases bind_cases h with ⟨e, he, rfl⟩ | ⟨images, himages, rfl⟩
    · refine ⟨nofun, fun _ => .noImage hup hcompleted hverdict hseeds hjobs fun images himages => ?_⟩
      rw [jobImages_some.mpr himages] at he
      cases he
    · refine ⟨fun ev hev => ?_, nofun⟩
      obtain rfl := Except.ok.inj hev
      exact ⟨t, claimed, jobs, files, v, s, j, hup, hcompleted, hverdict, hseeds, hjobs,
        jobImages_some.mp (orEscape_ok_iff.mp himages), rfl, hins, hprivs⟩
  · obtain rfl := h
    exact ⟨nofun, nofun⟩

/-- **What `_evidence` returns.** -/
theorem evidence_ok_iff {op : Operation} {ev : Evidence F} :
    evidence host ledger F op = .ok ev ↔ Exposes ledger op ev := by
  refine ⟨fun h => (evidence_spec h).1 ev rfl, ?_⟩
  rintro ⟨t, claimed, jobs, files, v, s, j, hup, ⟨artifacts, hartifacts, hv, hs, hj⟩, hverdict,
    hseeds, hjobs, himages, hcandidate, hins, hprivs⟩
  obtain ⟨candidate, ins, privs, verdict, seeds, images⟩ := ev
  obtain rfl : candidate = Dict.update [] files := hcandidate
  obtain rfl : ins = Dict.update [] t.inputs := hins
  obtain rfl : privs = Dict.update [] t.priv := hprivs
  rw [evidence_upheld host hup, hartifacts]
  simp only [bind, Except.bind, orEscape, hv, hs, hj, readJson_ok_iff.mpr hverdict,
    readJson_ok_iff.mpr hseeds, readJson_ok_iff.mpr hjobs, jobImages_some.mpr himages]

/-- **Where `_evidence` raises** past `regrade`. -/
theorem evidence_escapes_iff {op : Operation} :
    evidence host ledger F op = .error .escapes ↔ Raises F host ledger op := by
  refine ⟨fun h => (evidence_spec h).2 rfl, fun h => ?_⟩
  -- a submission with files that is no dictionary
  have hget : ∀ {t : Trail} {claimed : Json F}, Submitted F ledger op t →
      ledger.HoldsJson t.target claimed → claimed.obj? = none → t.observation.inputs ≠ [] →
      evidence host ledger F op = .error .escapes := by
    intro t claimed hsub hclaims hobj hne
    rw [evidence.eq_def, hsub.gather]
    simp only [bind, Except.bind, Option.bind_some, hsub.observed, Option.map_some,
      readJson_ok_iff.mpr hclaims, capture_escapes_iff.mpr ⟨hobj, hne⟩]
  cases h with
  | submission hsub hdeep =>
      rw [evidence.eq_def, hsub.gather]
      simp only [bind, Except.bind, Option.bind_some, hsub.observed, Option.map_some,
        readJson_escapes_iff.mpr hdeep]
  | noGet hsub hclaims hobj hne => exact hget hsub hclaims hobj hne
  | @noLen t claimed hsub hclaims hlen =>
      have hobj : claimed.obj? = none := by
        cases claimed with
        | obj d => cases hlen
        | _ => rfl
      rcases eq_or_ne t.observation.inputs [] with hnil | hne
      · rw [evidence.eq_def, hsub.gather]
        simp only [bind, Except.bind, Option.bind_some, hsub.observed, Option.map_some,
          readJson_ok_iff.mpr hclaims, hnil, List.foldlM_nil, pure, Except.pure, hlen, orEscape]
      · exact hget hsub hclaims hobj hne
  | noCompletion hup hart =>
      rw [evidence_upheld host hup, hart]
      rfl
  | verdict hup hcompleted hdeep =>
      obtain ⟨artifacts, hart, hv, hs, hj⟩ := hcompleted
      rw [evidence_upheld host hup, hart]
      simp only [bind, Except.bind, orEscape, hv, hs, hj, readJson_escapes_iff.mpr hdeep]
  | seeds hup hcompleted hverdict hdeep =>
      obtain ⟨artifacts, hart, hv, hs, hj⟩ := hcompleted
      rw [evidence_upheld host hup, hart]
      simp only [bind, Except.bind, orEscape, hv, hs, hj, readJson_ok_iff.mpr hverdict,
        readJson_escapes_iff.mpr hdeep]
  | jobs hup hcompleted hverdict hseeds hdeep =>
      obtain ⟨artifacts, hart, hv, hs, hj⟩ := hcompleted
      rw [evidence_upheld host hup, hart]
      simp only [bind, Except.bind, orEscape, hv, hs, hj, readJson_ok_iff.mpr hverdict,
        readJson_ok_iff.mpr hseeds, readJson_escapes_iff.mpr hdeep]
  | @noImage t claimed verdict seeds jobs files v s j hup hcompleted hverdict hseeds hjobs hnone =>
      obtain ⟨artifacts, hart, hv, hs, hj⟩ := hcompleted
      have himages : jobImages jobs = none := by
        rcases h : jobImages jobs with - | images
        · rfl
        · exact absurd (jobImages_some.mp h) (hnone images)
      rw [evidence_upheld host hup, hart]
      simp only [bind, Except.bind, orEscape, hv, hs, hj, readJson_ok_iff.mpr hverdict,
        readJson_ok_iff.mpr hseeds, readJson_ok_iff.mpr hjobs, himages]

end Evidence

end ReSchema
