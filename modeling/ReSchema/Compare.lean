/-
ReSchema/Compare.lean

The comparison of the program gate (`validate/program.py`).

`compare` judges traces that a model reports, JSON values from outside, against
the recorded ones: the two streams and the exit code, the written files, then
the observable events with address tokens made wildcards.  The first
difference decides, and its divergence echoes both sides and a slice of the
recorded events.  `none` is an exception, which a reported trace outside the
shape that `_trace_ok` checks may raise.

`agrees_iff` says when one reported trace passes, and `agrees_toJson_iff` what
that means for a trace that was recorded itself.
-/
import ReSchema.Canonical

namespace ReSchema

open Py

/-! ### Observable events -/

/-- `OBS`. -/
def obs : List PyStr := [py "write", py "writev", py "exit_group"]

/-- An argument with an address token made a wildcard. -/
def wildcard (a : PyStr) : PyStr := if (py "ADDR_").isPrefixOf a then py "ADDR_*" else a

/-- `_obs_events(trace)` of a recorded trace. -/
def obsEvents (evs : List Event) : List Event :=
  (evs.filter (·.sc ∈ obs)).map fun e => { e with args := e.args.map wildcard }

section Reported

variable {F : Type} [Runtime F]

/-- One round of the loop in `_obs_events`: nothing for an event that is not observable. -/
def obsEventJson (e : Json F) : Option (Option (Json F)) :=
  match e with
  | .obj d => do
      let sc ← (← d.lookup (py "sc")).str?
      if sc ∈ obs then
        let args ← (← d.lookup (py "args")).strs?
        return some (.obj (Dict.set d (py "args") (strs (args.map wildcard))))
      else return none
  | _ => none

/-- `_obs_events(trace)` of a reported trace. -/
def obsEventsJson (evs : List (Json F)) : Option (List (Json F)) :=
  (evs.mapM obsEventJson).map List.reduceOption

end Reported

/-! ### Dependency slices -/

/-- `_fd_table(events)`: the descriptors that opens with write intent returned. -/
def fdTable (evs : List Event) : List PyStr := (openWalk ⟨[], false⟩ evs).fds

/-- One event of the search in `_chain`: the last open with write intent, and the opener
found so far. -/
def chainStep (literal : PyStr) (s : Option Event × List Event) (e : Event) :
    Option Event × List Event :=
  if e.sc ∈ openFamily ∧ e.phase = py "enter" then
    (if writeIntent e.sc e.args then some e else none, s.2)
  else if e.sc ∈ openFamily ∧ e.phase = py "exit" ∧ e.result = some (some literal) then
    match s.1 with
    | some enter => (s.1, [enter, e])
    | none => s
  else s

/-- `xs[-n:]`. -/
def takeLast {α : Type} (n : ℕ) (xs : List α) : List α := xs.drop (xs.length - n)

/-- `_chain(evs, literal, fd)`, empty for `None`. -/
def chain (evs : List Event) (literal fd : PyStr) : List Event :=
  takeLast 6 ((evs.foldl (chainStep literal) (none, [])).2 ++
    evs.filter fun e => e.sc ∈ [py "write", py "writev"] ∧ e.args.head? = some fd)

/-- The descriptor literal that a name stands for, or the name itself. -/
def fdLiteral (fds : List PyStr) (fd : PyStr) : PyStr :=
  (fds.find? fun a => token "FD" fds a = fd).getD fd

/-- `_dep_slice(trace, focus_index)`, empty for `None`. -/
def depSlice (evs : List Event) (focusIndex : ℕ) : List Event :=
  match evs[focusIndex]?.bind fun focus => focus.args.head? with
  | none => []
  | some fd => chain (evs.take (focusIndex + 1)) (fdLiteral (fdTable evs) fd) fd

/-- `_dep_slice_for_files(trace)`, empty for `None`. -/
def depSliceForFiles (evs : List Event) : List Event :=
  match (fdTable evs).getLast? with
  | none => []
  | some literal => chain evs literal (token "FD" (fdTable evs) literal)

/-! ### The verdict -/

/-- `Verdict`; the reason and the divergence stand empty where it is ok. -/
structure Verdict (F : Type) where
  ok : Bool
  reason : PyStr
  divergence : Json F

def Verdict.passed {F : Type} : Verdict F := ⟨true, [], .null⟩

section Compare

variable {F : Type} [Runtime F]

/-- `_shown(hexstr)`. -/
def shown (hexstr : PyStr) : Option PyStr :=
  (fromHex hexstr).map fun b => b.map fun u => codePoint u.toNat

/-- `_io(t)`. -/
def io (out err exitCode : Json F) : Option (Json F) := do
  let shownOut ← shown (← out.str?)
  let shownErr ← shown (← err.str?)
  return .obj [(py "stdout", out), (py "stderr", err), (py "exit_code", exitCode),
    (py "stdout_decoded", .str shownOut), (py "stderr_decoded", .str shownErr)]

/-- The entry for a slice, left out where it is empty. -/
def sliceEntry (sl : List Event) : Dict (Json F) :=
  if sl = [] then [] else [(py "dep_slice", .arr (sl.map Event.toJson))]

/-- The entry for the fault marker of a model that crashed or timed out. -/
def faultEntry (got : Json F) (exitCode : Json F) : Option (Dict (Json F)) :=
  if pyEq exitCode (.int (-1)) then do
    let evs ← (← got.get? (py "events")).arr?
    return match evs.getLast? with
      | none => []
      | some e => [(py "actual_fault", e)]
  else some []

/-- The divergence of the streams and the exit code. -/
def ioMismatch (tr : Trace) (got : Json F) : Option (Verdict F) := do
  let out ← got.get? (py "stdout")
  let err ← got.get? (py "stderr")
  let exitCode ← got.get? (py "exit_code")
  let expected ← io (.str tr.stdout) (.str tr.stderr) (.int tr.exitCode)
  let actual ← io out err exitCode
  let fault ← faultEntry got exitCode
  return ⟨false, py "io-mismatch", .obj ([(py "argv", strs tr.argv), (py "expected", expected),
    (py "actual", actual)] ++ fault)⟩

/-- The divergence of the written files. -/
def filesMismatch (tr : Trace) (files : Json F) : Verdict F :=
  ⟨false, py "files-mismatch", .obj ([(py "argv", strs tr.argv),
    (py "expected", filesJson tr.filesWritten), (py "actual", files)] ++
    sliceEntry (depSliceForFiles tr.events))⟩

/-- The index in the full stream of the `i`-th observable event. -/
def fullIndex (evs : List Event) (i : ℕ) : Option ℕ :=
  ((evs.zipIdx.filter fun p => p.1.sc ∈ obs).map Prod.snd)[i]?

/-- The divergence of the event at index `i`. -/
def eventDivergence (tr : Trace) (i : ℕ) (e : Event) (a : Json F) : Verdict F :=
  ⟨false, py "event-divergence", .obj ([(py "argv", strs tr.argv),
    (py "first_diverging_event_index", .int i), (py "expected", e.toJson), (py "actual", a)] ++
    sliceEntry (match fullIndex tr.events i with
      | none => []
      | some j => depSlice tr.events j))⟩

/-- The divergence of the numbers of events. -/
def eventLength (tr : Trace) (expected actual : ℕ) : Verdict F :=
  ⟨false, py "event-length", .obj [(py "argv", strs tr.argv), (py "expected_len", .int expected),
    (py "actual_len", .int actual)]⟩

/-- The loop over pairs of observable events, from index `i` on. -/
def compareEvents (tr : Trace) (i : ℕ) : List Event → List (Json F) → Option (Verdict F)
  | e :: te, a :: ge =>
      if pyEq e.toJson a then compareEvents tr (i + 1) te ge else some (eventDivergence tr i e a)
  | _, _ => none

/-- The observable events, by pairs and then by number. -/
def compareObs (tr : Trace) (ge : List (Json F)) : Option (Verdict F) :=
  let te := obsEvents tr.events
  match compareEvents tr 0 te ge with
  | some v => some v
  | none => if ge.length = te.length then none else some (eventLength tr te.length ge.length)

/-- The written files, then the observable events. -/
def compareFiles (tr : Trace) (got : Json F) : Option (Option (Verdict F)) := do
  let files ← got.get? (py "files_written")
  if pyEq (filesJson tr.filesWritten) files then
    let evs ← (← got.get? (py "events")).arr?
    return compareObs tr (← obsEventsJson evs)
  else return some (filesMismatch tr files)

/-- One round of the loop in `compare`: `some none` where the two traces agree.  The tests for
equality have the recorded side in front. -/
def compareOne (tr : Trace) (got : Json F) : Option (Option (Verdict F)) := do
  let out ← got.get? (py "stdout")
  let err ← got.get? (py "stderr")
  let exitCode ← got.get? (py "exit_code")
  if pyEq (.str tr.stdout) out && pyEq (.str tr.stderr) err &&
      pyEq (.int tr.exitCode) exitCode then compareFiles tr got
  else (ioMismatch tr got).map some

/-- `compare(traces, got_traces)`. -/
def compare : List Trace → List (Json F) → Option (Verdict F)
  | tr :: trs, got :: gots =>
      match compareOne tr got with
      | none => none
      | some (some v) => some v
      | some none => compare trs gots
  | _, _ => some .passed

/-- The comparison passed. -/
def IsOk (o : Option (Verdict F)) : Prop := ∃ v, o = some v ∧ v.ok = true

/-! ### When traces agree -/

/-- The reported trace has what the recorded one has. -/
structure Agrees (tr : Trace) (got : Json F) : Prop where
  stdout : got.get? (py "stdout") = some (.str tr.stdout)
  stderr : got.get? (py "stderr") = some (.str tr.stderr)
  exitCode : ∃ c, got.get? (py "exit_code") = some c ∧ pyEq (.int tr.exitCode) c = true
  files : ∃ f, got.get? (py "files_written") = some f ∧ pyEq (filesJson tr.filesWritten) f = true
  events : ∃ evs ge, got.get? (py "events") = some (.arr evs) ∧ obsEventsJson evs = some ge ∧
    List.Forall₂ (fun e a => pyEq e.toJson a = true) (obsEvents tr.events) ge

theorem compareEvents_eq_none_iff (tr : Trace) {te : List Event} {ge : List (Json F)} (i : ℕ) :
    compareEvents tr i te ge = none ∧ ge.length = te.length ↔
      List.Forall₂ (fun e a => pyEq e.toJson a = true) te ge := by
  induction te generalizing ge i with
  | nil => cases ge <;> simp [compareEvents]
  | cons e te ih =>
      cases ge with
      | nil => simp
      | cons a ge =>
          rw [List.forall₂_cons, ← ih (i + 1), compareEvents]
          by_cases h : pyEq e.toJson a = true <;> simp [h]

theorem compareObs_eq_none_iff {tr : Trace} {ge : List (Json F)} :
    compareObs tr ge = none ↔
      List.Forall₂ (fun e a => pyEq e.toJson a = true) (obsEvents tr.events) ge := by
  rw [← compareEvents_eq_none_iff tr 0, compareObs]
  rcases compareEvents tr 0 (obsEvents tr.events) ge with - | v <;> simp

theorem compareFiles_eq_iff {tr : Trace} {got : Json F} :
    compareFiles tr got = some none ↔
      (∃ f, got.get? (py "files_written") = some f ∧ pyEq (filesJson tr.filesWritten) f = true) ∧
      ∃ evs ge, got.get? (py "events") = some (.arr evs) ∧ obsEventsJson evs = some ge ∧
        List.Forall₂ (fun e a => pyEq e.toJson a = true) (obsEvents tr.events) ge := by
  rcases hf : got.get? (py "files_written") with - | f
  · simp [compareFiles, hf]
  · by_cases hfe : pyEq (filesJson tr.filesWritten) f = true
    · simp [compareFiles, hf, hfe, Option.bind_eq_some_iff, Json.arr?_eq_some,
        compareObs_eq_none_iff]
    · simp [compareFiles, hf, hfe]

theorem compareOne_eq_iff {tr : Trace} {got : Json F} :
    compareOne tr got = some none ↔ Agrees tr got := by
  constructor
  · intro h
    obtain ⟨out, hout, h⟩ := Option.bind_eq_some_iff.mp h
    obtain ⟨err, herr, h⟩ := Option.bind_eq_some_iff.mp h
    obtain ⟨c, hc, h⟩ := Option.bind_eq_some_iff.mp h
    split_ifs at h with heq
    · simp only [Bool.and_eq_true] at heq
      obtain ⟨hf, he⟩ := compareFiles_eq_iff.mp h
      exact ⟨hout.trans (congrArg some (pyEq_str.mp heq.1.1)),
        herr.trans (congrArg some (pyEq_str.mp heq.1.2)), ⟨c, hc, heq.2⟩, hf, he⟩
    · simp at h
  · rintro ⟨hout, herr, ⟨c, hc, hce⟩, hf, he⟩
    have hfiles := compareFiles_eq_iff.mpr ⟨hf, he⟩
    have hs : pyEq (F := F) (.str tr.stdout) (.str tr.stdout) = true := pyEq_str.mpr rfl
    have ht : pyEq (F := F) (.str tr.stderr) (.str tr.stderr) = true := pyEq_str.mpr rfl
    simp [compareOne, hout, herr, hc, hce, hs, ht, hfiles]

theorem compareEvents_not_ok {tr : Trace} {te : List Event} {ge : List (Json F)} {i : ℕ}
    {v : Verdict F} (h : compareEvents tr i te ge = some v) : v.ok = false := by
  induction te generalizing ge i with
  | nil => simp [compareEvents] at h
  | cons e te ih =>
      cases ge with
      | nil => simp [compareEvents] at h
      | cons a ge =>
          rw [compareEvents] at h
          split_ifs at h
          · exact ih h
          · cases h
            rfl

theorem compareObs_not_ok {tr : Trace} {ge : List (Json F)} {v : Verdict F}
    (h : compareObs tr ge = some v) : v.ok = false := by
  rw [compareObs] at h
  rcases he : compareEvents tr 0 (obsEvents tr.events) ge with - | w
  · simp only [he] at h
    split_ifs at h
    cases h
    rfl
  · simp only [he] at h
    cases h
    exact compareEvents_not_ok he

/-- A round that decides, decides against the model. -/
theorem compareOne_not_ok {tr : Trace} {got : Json F} {v : Verdict F}
    (h : compareOne tr got = some (some v)) : v.ok = false := by
  obtain ⟨out, hout, h⟩ := Option.bind_eq_some_iff.mp h
  obtain ⟨err, herr, h⟩ := Option.bind_eq_some_iff.mp h
  obtain ⟨c, hc, h⟩ := Option.bind_eq_some_iff.mp h
  split_ifs at h
  · obtain ⟨files, -, h⟩ := Option.bind_eq_some_iff.mp h
    split_ifs at h
    · obtain ⟨evs, -, h⟩ := Option.bind_eq_some_iff.mp h
      obtain ⟨xs, -, h⟩ := Option.bind_eq_some_iff.mp h
      obtain ⟨ge, -, h⟩ := Option.bind_eq_some_iff.mp h
      exact compareObs_not_ok (Option.some.inj h)
    · cases h
      rfl
  · obtain ⟨w, hw, hv⟩ := Option.map_eq_some_iff.mp h
    cases hv
    obtain ⟨_, -, hw⟩ := Option.bind_eq_some_iff.mp hw
    obtain ⟨_, -, hw⟩ := Option.bind_eq_some_iff.mp hw
    obtain ⟨_, -, hw⟩ := Option.bind_eq_some_iff.mp hw
    obtain ⟨_, -, hw⟩ := Option.bind_eq_some_iff.mp hw
    obtain ⟨_, -, hw⟩ := Option.bind_eq_some_iff.mp hw
    obtain ⟨_, -, hw⟩ := Option.bind_eq_some_iff.mp hw
    cases hw
    rfl

/-- **What `compare` accepts.**  The comparison passes where every pair agrees, as far as the
shorter list goes. -/
theorem isOk_compare_iff {trs : List Trace} {gots : List (Json F)} :
    IsOk (compare trs gots) ↔ ∀ p ∈ trs.zip gots, Agrees p.1 p.2 := by
  induction trs generalizing gots with
  | nil => simp [compare, IsOk, Verdict.passed]
  | cons tr trs ih =>
      cases gots with
      | nil => simp [compare, IsOk, Verdict.passed]
      | cons got gots =>
          rw [List.zip_cons_cons, List.forall_mem_cons, ← @ih gots, ← compareOne_eq_iff,
            compare]
          rcases h : compareOne tr got with - | - | v
          · simp [IsOk]
          · simp
          · simp [IsOk, compareOne_not_ok h]

/-! ### Recorded traces on both sides -/

omit [Runtime F] in
theorem obsEventJson_toJson (e : Event) :
    obsEventJson (F := F) e.toJson = some (if e.sc ∈ obs then
      some { e with args := e.args.map wildcard }.toJson else none) := by
  obtain ⟨phase, sc, args, result⟩ := e
  by_cases h : sc ∈ obs
  · rcases result with - | - | r <;>
      simp [obsEventJson, Event.toJson, h, Json.str?, List.lookup_cons, Dict.set]
  · rcases result with - | - | r <;>
      simp [obsEventJson, Event.toJson, h, Json.str?, List.lookup_cons]

omit [Runtime F] in
theorem obsEventsJson_toJson (evs : List Event) :
    obsEventsJson (F := F) (evs.map Event.toJson) = some ((obsEvents evs).map Event.toJson) := by
  have go : (evs.map Event.toJson).mapM (obsEventJson (F := F)) = some (evs.map fun e =>
      if e.sc ∈ obs then some { e with args := e.args.map wildcard }.toJson else none) := by
    induction evs with
    | nil => rfl
    | cons e evs ih => simp [obsEventJson_toJson, ih]
  rw [obsEventsJson, go, Option.map_some, obsEvents]
  congr 1
  clear go
  induction evs with
  | nil => rfl
  | cons e evs ih => by_cases h : e.sc ∈ obs <;> simp [h, List.reduceOption_cons_of_some,
      List.reduceOption_cons_of_none, ih]

theorem pyEq_event {e f : Event} : pyEq (F := F) e.toJson f.toJson = true ↔ e = f := by
  obtain ⟨phase, sc, args, result⟩ := e
  obtain ⟨phase', sc', args', result'⟩ := f
  have hstrs : ∀ as bs : List PyStr, pyEq (F := F) (strs as) (strs bs) = true ↔ as = bs := by
    intro as bs
    rw [strs, pyEq_strs, strs, Json.arr.injEq, eq_comm]
    exact (List.map_injective_iff.mpr fun _ _ => Json.str.inj).eq_iff
  rcases result with - | - | r <;> rcases result' with - | - | r' <;>
    simp [Event.toJson, pyEq, pyEqDict, List.lookup_cons, hstrs]

/-- The order of the files does not matter. -/
theorem pyEq_files_perm {files files' : Dict PyStr} (h : files.Perm files')
    (hnodup : files'.keys.Nodup) : pyEq (F := F) (filesJson files) (filesJson files') = true := by
  have hkeys : (Dict.keys (files'.map fun p => (p.1, Json.str (F := F) p.2))).Nodup := by
    simpa [Dict.keys, Function.comp_def] using hnodup
  have hlength : (files.map fun p => (p.1, Json.str (F := F) p.2)).length =
      (files'.map fun p => (p.1, Json.str (F := F) p.2)).length := by
    rw [List.length_map, List.length_map, h.length_eq]
  rw [filesJson, filesJson, pyEq, hlength, beq_self_eq_true, Bool.true_and, pyEqDict_iff]
  intro p hp
  obtain ⟨q, hq, rfl⟩ := List.mem_map.mp hp
  have hmem := List.mem_map_of_mem (f := fun p => (p.1, Json.str (F := F) p.2)) (h.mem_iff.mp hq)
  exact ⟨.str q.2, Dict.lookup_eq_some_of_mem hkeys hmem, pyEq_str.mpr rfl⟩

section Fields

variable (t : Trace)

omit [Runtime F] in
@[simp] theorem Trace.toJson_stdout :
    (t.toJson : Json F).get? (py "stdout") = some (.str t.stdout) := by
  simp [Trace.toJson, Json.get?, List.lookup_cons]

omit [Runtime F] in
@[simp] theorem Trace.toJson_stderr :
    (t.toJson : Json F).get? (py "stderr") = some (.str t.stderr) := by
  simp [Trace.toJson, Json.get?, List.lookup_cons]

omit [Runtime F] in
@[simp] theorem Trace.toJson_exitCode :
    (t.toJson : Json F).get? (py "exit_code") = some (.int t.exitCode) := by
  simp [Trace.toJson, Json.get?, List.lookup_cons]

omit [Runtime F] in
@[simp] theorem Trace.toJson_filesWritten :
    (t.toJson : Json F).get? (py "files_written") = some (filesJson t.filesWritten) := by
  simp [Trace.toJson, Json.get?, List.lookup_cons]

omit [Runtime F] in
@[simp] theorem Trace.toJson_events :
    (t.toJson : Json F).get? (py "events") = some (.arr (t.events.map Event.toJson)) := by
  simp [Trace.toJson, Json.get?, List.lookup_cons]

end Fields

/-- Two recorded traces agree where they have the same observable behaviour. -/
theorem agrees_toJson_iff {t u : Trace} :
    Agrees (F := F) t u.toJson ↔ t.stdout = u.stdout ∧ t.stderr = u.stderr ∧
      t.exitCode = u.exitCode ∧
      pyEq (F := F) (filesJson t.filesWritten) (filesJson u.filesWritten) = true ∧
      obsEvents t.events = obsEvents u.events := by
  have hall : ∀ es fs : List Event, List.Forall₂ (fun e a => pyEq (F := F) e.toJson a = true) es
      (fs.map Event.toJson) ↔ es = fs := by
    intro es fs
    rw [List.forall₂_map_right_iff]
    simp only [pyEq_event, List.forall₂_eq_eq_eq]
  have hint : ∀ i j : ℤ, pyEq (F := F) (.int i) (.int j) = true ↔ i = j := by simp [pyEq]
  constructor
  · rintro ⟨h1, h2, ⟨c, hc, hce⟩, ⟨f, hf, hfe⟩, evs, ge, he, hge, hfor⟩
    rw [Trace.toJson_exitCode, Option.some.injEq] at hc
    rw [Trace.toJson_filesWritten, Option.some.injEq] at hf
    rw [Trace.toJson_events, Option.some.injEq, Json.arr.injEq] at he
    subst hc hf he
    rw [obsEventsJson_toJson, Option.some.injEq] at hge
    subst hge
    rw [Trace.toJson_stdout, Option.some.injEq, Json.str.injEq] at h1
    rw [Trace.toJson_stderr, Option.some.injEq, Json.str.injEq] at h2
    exact ⟨h1.symm, h2.symm, (hint _ _).mp hce, hfe, (hall _ _).mp hfor⟩
  · rintro ⟨h1, h2, h3, h4, h5⟩
    exact ⟨by rw [Trace.toJson_stdout, h1], by rw [Trace.toJson_stderr, h2],
      ⟨_, u.toJson_exitCode, (hint _ _).mpr h3⟩, ⟨_, u.toJson_filesWritten, h4⟩,
      _, _, u.toJson_events, obsEventsJson_toJson _, (hall _ _).mpr h5⟩

end Compare

end ReSchema
