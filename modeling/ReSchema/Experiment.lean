/-
ReSchema/Experiment.lean

The operation `experiment` (`operations.py`).

A worker asks for runs of the program on inputs of its own.  `parse` makes its
arguments canonical and keeps them within the limits of a nominated case;
`execute` records the program twice and shows the trace: whole where it fits,
and else cut field by field, with the whole in a file beside the response.

Standard input is plain text here and hexadecimal in `cases.json`, so the two
agree on UTF-8 only.

  * `probed_iff`:        what can be probed is what can be nominated, in UTF-8;
  * `probe_is_truth`:    a nominated probe is recorded as it was shown;
  * `execute_shown`:     what is shown fits, and nothing of the trace is lost.
-/
import ReSchema.ExperimentFunction
import ReSchema.HonestReplay
import ReSchema.Py.Utf8
import ReSchema.ReplayTotal
import ReSchema.UnreadParts

namespace ReSchema

open Py

/-! ### Arguments -/

/-- The arguments of `experiment` in their canonical form. -/
structure Probe where
  argv : List PyStr
  stdin : PyStr
  quiet : Bool

/-- What the codec says of the first surrogates of a text. -/
def surrogateText (s : PyStr) : PyStr :=
  let start := (s.takeWhile fun c => !isSurrogate c).length
  match (s.drop start).takeWhile isSurrogate with
  | [c] => py "'utf-8' codec can't encode character '\\u" ++ hexFixed 4 c.val ++
      py "' in position " ++ natText start ++ py ": surrogates not allowed"
  | cs => py "'utf-8' codec can't encode characters in position " ++ natText start ++ py "-" ++
      natText (start + cs.length - 1) ++ py ": surrogates not allowed"

/-- `s.encode()`; its `UnicodeEncodeError` is a `ValueError`. -/
def encodeE (s : PyStr) : Except Exn Bytes :=
  if s.any isSurrogate then .error ⟨.valueError, surrogateText s⟩ else .ok (encode s)

section Parse

variable {F : Type}

/-- The canonical arguments as a dictionary. -/
def Probe.toJson (p : Probe) : Json F :=
  .obj [(py "argv", strs p.argv), (py "stdin", .str p.stdin), (py "quiet", .bool p.quiet)]

/-- `argv`, where it is a list of few short strings without NUL. -/
def probeArgs (v : Json F) : Option (List PyStr) := do
  let argv ← v.strs?
  if argv.length ≤ maxArgs ∧ (argv.all fun a => a.length ≤ maxArg) ∧
      ¬(argv.any fun a => (0 : CodePoint) ∈ a) then
    some argv
  else none

/-- The values that `parse` refuses. -/
def probeError (text : String) : Exn := ⟨.valueError, py text⟩

/-- `Experiment.parse(arguments)`. -/
def parseProbe (arguments : Json F) : Except Exn Probe :=
  match arguments.obj? with
  | none => .error (probeError "experiment takes \x7b\"argv\"?, \"stdin\"?, \"quiet\"?\x7d")
  | some d =>
      if !(d.keys.all fun k => k ∈ [py "argv", py "stdin", py "quiet"]) then
        .error (probeError "experiment takes \x7b\"argv\"?, \"stdin\"?, \"quiet\"?\x7d")
      else match probeArgs ((d.lookup (py "argv")).getD (.arr [])) with
        | none => .error (probeError "argv is a list of at most 16 strings of 256 chars")
        | some argv =>
            match ((d.lookup (py "stdin")).getD (.str [])).str? with
            | none => .error (probeError "stdin is a string of at most 4096 bytes")
            | some stdin =>
                match encodeE stdin with
                | .error e => .error e
                | .ok b =>
                    if maxStdin < b.length then
                      .error (probeError "stdin is a string of at most 4096 bytes")
                    else match (d.lookup (py "quiet")).getD (.bool false) with
                      | .bool quiet => .ok ⟨argv, stdin, quiet⟩
                      | _ => .error (probeError "quiet is a boolean")

end Parse

/-! ### Execution -/

/-- `SHOWN_LIMIT`. -/
def shownLimit : ℕ := 64 * 1024

/-- `OperationResult`: whether the operation succeeded, what is shown of it, and the files beside. -/
structure ProbeResult (F : Type) where
  succeeded : Bool
  shown : Json F
  files : Dict Bytes

section Execute

variable (F : Type) [Runtime F]

/-- `{k: v for k, v in t.items() if k != "events"}`. -/
def Trace.quiet {F : Type} (t : Trace) : Dict (Json F) :=
  (((t.toJson : Json F).obj?).getD []).filter fun e => e.1 ≠ py "events"

/-- The result that shows a trace, `none` for the assertion of `_capped`. -/
def showTrace (quiet : Bool) (t : Trace) : Option (ProbeResult F) :=
  let shown : Json F := if quiet then .obj t.quiet else t.toJson
  if (dumps plain shown).length ≤ shownLimit - 1024 then some ⟨true, shown, []⟩
  else
    (capped (.obj (Dict.set t.quiet (py "events_omitted") (.int t.events.length)))).map fun brief =>
      ⟨true, brief, [(py "trace.json", encode (dumps plain (t.toJson : Json F)))]⟩

/-- `Experiment.execute(ctx, arguments)`: the program stands in a file `prog`, and `k` is the
number of the next recording. -/
def executeProbe (guest : Guest) (prog : PyStr) (k : ℕ) (p : Probe) : Option (ProbeResult F) :=
  match recordStable F guest prog k p.argv (encode p.stdin) with
  | none =>
      some ⟨false, .obj [(py "error", .str (py "flaky: two recordings of this input differ"))], []⟩
  | some t => showTrace F p.quiet t

end Execute

/-! ### What passes `parse` -/

/-- The arguments that `parse` returns. -/
structure Probe.Valid (p : Probe) : Prop where
  args_le : p.argv.length ≤ maxArgs
  arg_le : ∀ a ∈ p.argv, a.length ≤ maxArg
  no_nul : ∀ a ∈ p.argv, (0 : CodePoint) ∉ a
  scalar : NoSurrogate p.stdin
  stdin_le : (encode p.stdin).length ≤ maxStdin

theorem encodeE_ok {s : PyStr} {b : Bytes} :
    encodeE s = .ok b ↔ NoSurrogate s ∧ encode s = b := by
  have hiff : s.any isSurrogate = false ↔ NoSurrogate s := by
    simp [NoSurrogate, List.any_eq_false]
  rw [encodeE]
  split_ifs with h
  · simp only [false_iff]
    rintro ⟨hno, -⟩
    rw [hiff.mpr hno] at h
    cases h
  · rw [Bool.not_eq_true, hiff] at h
    simp [h]

section Valid

variable {F : Type}

theorem probeArgs_eq_some {v : Json F} {argv : List PyStr} :
    probeArgs v = some argv ↔ v.strs? = some argv ∧ argv.length ≤ maxArgs ∧
      (∀ a ∈ argv, a.length ≤ maxArg) ∧ ∀ a ∈ argv, (0 : CodePoint) ∉ a := by
  rw [probeArgs, Option.bind_eq_bind, Option.bind_eq_some_iff]
  constructor
  · rintro ⟨argv', hv, h⟩
    split_ifs at h with hok
    obtain rfl := Option.some.inj h
    simp only [List.all_eq_true, decide_eq_true_eq, List.any_eq_true, not_exists, not_and] at hok
    exact ⟨hv, hok⟩
  · rintro ⟨hv, hlen, harg, hnul⟩
    refine ⟨argv, hv, if_pos ⟨hlen, ?_, ?_⟩⟩
    · simpa only [List.all_eq_true, decide_eq_true_eq] using harg
    · simpa only [List.any_eq_true, decide_eq_true_eq, not_exists, not_and] using hnul

/-- Arguments that `parse` takes. -/
theorem parseProbe_ok {arguments : Json F} {p : Probe} (h : parseProbe arguments = .ok p) :
    ∃ d, arguments = .obj d ∧ probeArgs ((d.lookup (py "argv")).getD (.arr [])) = some p.argv ∧
      encodeE p.stdin = .ok (encode p.stdin) ∧ (encode p.stdin).length ≤ maxStdin := by
  rw [parseProbe] at h
  rcases hobj : arguments.obj? with - | d
  · simp only [hobj] at h
    cases h
  simp only [hobj] at h
  split_ifs at h with hkeys
  rcases hargv : probeArgs ((d.lookup (py "argv")).getD (.arr [])) with - | argv
  · simp only [hargv] at h
    cases h
  rcases hstdin : ((d.lookup (py "stdin")).getD (.str [])).str? with - | stdin
  · simp only [hargv, hstdin] at h
    cases h
  rcases hb : encodeE stdin with e | b
  · simp only [hargv, hstdin, hb] at h
    cases h
  simp only [hargv, hstdin, hb] at h
  split_ifs at h with hlen
  split at h
  · obtain rfl := Except.ok.inj h
    obtain ⟨-, rfl⟩ := encodeE_ok.mp hb
    exact ⟨d, Json.obj?_eq_some.mp hobj, hargv, hb, not_lt.mp hlen⟩
  · cases h

/-- What `parse` returns keeps the limits. -/
theorem parseProbe_valid {arguments : Json F} {p : Probe} (h : parseProbe arguments = .ok p) :
    p.Valid := by
  obtain ⟨d, -, hargv, hstdin, hlen⟩ := parseProbe_ok h
  obtain ⟨-, hargs, harg, hnul⟩ := probeArgs_eq_some.mp hargv
  exact ⟨hargs, harg, hnul, (encodeE_ok.mp hstdin).1, hlen⟩

/-- **`parse` is idempotent**, and returns whatever keeps the limits. -/
theorem parseProbe_toJson {p : Probe} (h : p.Valid) : parseProbe (p.toJson : Json F) = .ok p := by
  have hargs : probeArgs (strs p.argv : Json F) = some p.argv :=
    probeArgs_eq_some.mpr ⟨Json.strs?_strs _, h.args_le, h.arg_le, h.no_nul⟩
  have hstdin : encodeE p.stdin = .ok (encode p.stdin) := encodeE_ok.mpr ⟨h.scalar, rfl⟩
  have hkeys : ([py "argv", py "stdin", py "quiet"].all fun k =>
      k ∈ [py "argv", py "stdin", py "quiet"]) = true := by decide
  simp [Probe.toJson, parseProbe, Json.obj?, Dict.keys, List.lookup_cons, hargs, Json.str?, hstdin,
    not_lt.mpr h.stdin_le]

/-- A case with the arguments and the input. -/
def nominate (argv : List PyStr) (b : Bytes) : Json F :=
  .obj [(py "argv", strs argv), (py "stdin_hex", .str (hex b))]

variable [Runtime F]

theorem parseCase_nominate {argv : List PyStr} {b : Bytes} :
    parseCase (nominate argv b : Json F) = .ok (argv, hex b) ↔ argv.length ≤ maxArgs ∧
      (∀ a ∈ argv, a.length ≤ maxArg ∧ (0 : CodePoint) ∉ a) ∧ b.length ≤ maxStdin := by
  have hshape : caseShape (nominate argv b : Json F) =
      if argv.length ≤ maxArgs ∧ (argv.all fun a => a.length ≤ maxArg && (0 : CodePoint) ∉ a) ∧
        (hex b).length ≤ 2 * maxStdin then some (argv, hex b) else none := by
    simp [caseShape, nominate, Json.obj?, List.lookup_cons, Json.str?, Dict.keys, sameKeys]
  have hlen : (hex b).length ≤ 2 * maxStdin ↔ b.length ≤ maxStdin := by
    rw [length_hex]
    omega
  have hargs : (argv.all fun a => a.length ≤ maxArg && (0 : CodePoint) ∉ a) = true ↔
      ∀ a ∈ argv, a.length ≤ maxArg ∧ (0 : CodePoint) ∉ a := by
    simp only [List.all_eq_true, Bool.and_eq_true, decide_eq_true_eq]
  rw [← hlen, ← hargs, parseCase, hshape]
  split_ifs with h
  · simp only [fromHex_hex, h, and_self]
  · simp only [h]

omit [Runtime F] in
/-- Whatever keeps the limits and is UTF-8 can be asked for. -/
theorem exists_probe {argv : List PyStr} {b : Bytes} (hargs : argv.length ≤ maxArgs)
    (harg : ∀ a ∈ argv, a.length ≤ maxArg ∧ (0 : CodePoint) ∉ a) (hlen : b.length ≤ maxStdin)
    (hb : (decodeUtf8 .strict b).isSome = true) :
    ∃ (arguments : Json F) (p : Probe), parseProbe arguments = .ok p ∧ p.argv = argv ∧
      encode p.stdin = b := by
  obtain ⟨s, hs⟩ := Option.isSome_iff_exists.mp hb
  obtain ⟨rfl, hscalar⟩ := encode_of_decodeUtf8 hs
  have hp : Probe.Valid ⟨argv, s, false⟩ :=
    ⟨hargs, fun a ha => (harg a ha).1, fun a ha => (harg a ha).2, hscalar, hlen⟩
  exact ⟨Probe.toJson ⟨argv, s, false⟩, _, parseProbe_toJson hp, rfl, rfl⟩

/-- **What can be probed is what can be nominated, in UTF-8.**  The operation runs the program on
given arguments and octets exactly when these may stand in `cases.json` and the octets are the
UTF-8 of some text. -/
theorem probed_iff {argv : List PyStr} {b : Bytes} :
    (∃ (arguments : Json F) (p : Probe), parseProbe arguments = .ok p ∧ p.argv = argv ∧
        encode p.stdin = b) ↔
      parseCase (nominate argv b : Json F) = .ok (argv, hex b) ∧
        (decodeUtf8 .strict b).isSome = true := by
  rw [parseCase_nominate]
  constructor
  · rintro ⟨arguments, p, hparse, rfl, rfl⟩
    have hp := parseProbe_valid hparse
    refine ⟨⟨hp.args_le, fun a ha => ⟨hp.arg_le a ha, hp.no_nul a ha⟩, hp.stdin_le⟩, ?_⟩
    rw [decodeUtf8_encode .strict hp.scalar]
    rfl
  · rintro ⟨⟨hargs, harg, hlen⟩, hsome⟩
    exact exists_probe hargs harg hlen hsome

end Valid

/-! ### Probes as ground truth -/

section Truth

variable {F : Type} [Runtime F]

/-- The arguments stand in a JSON text, and pass. -/
def Requested (F : Type) [Runtime F] (p : Probe) : Prop :=
  ∃ (s : PyStr) (arguments : Json F), NoSurrogate s ∧ loadsText s = some arguments ∧
    parseProbe arguments = .ok p

/-- The input of the run that is asked for. -/
def Probe.input (p : Probe) : Input := (p.argv, hex (encode p.stdin))

omit [Runtime F] in
theorem joined_strs {ss : List PyStr} :
    (strs ss : Json F).joined = strs ss ↔ ∀ s ∈ ss, joinPairs s = s := by
  rw [strs, Json.joined, joinedList_eq_map, List.map_map, Json.arr.injEq, List.map_inj_left]
  simp [Json.joined]

theorem Requested.valid {p : Probe} (h : Requested F p) : p.Valid := by
  obtain ⟨s, arguments, -, -, hparse⟩ := h
  exact parseProbe_valid hparse

/-- JSON spells no surrogate pair that is not joined. -/
theorem Requested.joined {p : Probe} (h : Requested F p) : ∀ a ∈ p.argv, joinPairs a = a := by
  obtain ⟨s, arguments, hs, hload, hparse⟩ := h
  have hjoined := joined_of_loadsText hs hload
  obtain ⟨d, rfl, hargv, -, -⟩ := parseProbe_ok hparse
  rw [Json.joined, Json.obj.injEq, joinedDict_eq_self] at hjoined
  rw [← joined_strs (F := F), ← strs?_eq_some.mp (probeArgs_eq_some.mp hargv).1]
  rcases hlookup : d.lookup (py "argv") with - | v
  · rfl
  · exact (hjoined _ (Dict.mem_of_lookup_eq_some hlookup)).2

/-- Every recording of the program gives the same trace, but for its name, whatever it is called. -/
def Steady (F : Type) [Runtime F] (guest : Guest) : Prop :=
  ∀ binary binary' k k' argv stdin, recordAt F guest binary k argv stdin =
    { recordAt F guest binary' k' argv stdin with argv0 := pathName binary }

theorem pyEq_trace_self {t : Trace} (h : t.filesWritten.keys.Nodup) :
    pyEq (F := F) t.toJson t.toJson = true := by
  have hstrs : pyEq (F := F) (strs (t.argv0 :: t.argv)) (strs (t.argv0 :: t.argv)) = true :=
    pyEq_strs.mpr rfl
  have hevents : ∀ es : List Event,
      pyEqList (F := F) (es.map Event.toJson) (es.map Event.toJson) = true := by
    intro es
    induction es with
    | nil => rfl
    | cons e es ih => rw [List.map_cons, pyEqList, ih, pyEq_event.mpr rfl, Bool.true_and]
  have hfiles := pyEq_files_perm (F := F) (.refl t.filesWritten) h
  simp [Trace.toJson, pyEq, pyEqDict, List.lookup_cons, hstrs, hfiles, hevents]

theorem recordStable_steady {guest : Guest} (h : Steady F guest) (binary : PyStr) (k : ℕ)
    (argv : List PyStr) (stdin : Bytes) :
    recordStable F guest binary k argv stdin = some (recordAt F guest binary 0 argv stdin) := by
  have hnodup : (recordAt F guest binary 0 argv stdin).filesWritten.keys.Nodup := by
    have := (guest 0 binary argv stdin).nodup_files
    simpa [recordAt, canonicalize, record, Dict.keys, Function.comp_def] using this
  have hsame : ∀ k', recordAt F guest binary k' argv stdin = recordAt F guest binary 0 argv stdin :=
    fun k' => h binary binary k' 0 argv stdin
  simp only [recordStable]
  rw [hsame k, hsame (k + 1), if_pos (pyEq_trace_self hnodup)]

/-- No case of a steady program is flaky. -/
theorem recordCases_steady {guest : Guest} (h : Steady F guest) (binary : PyStr) (k : ℕ)
    (cs : List Input) : recordCases F guest binary k cs =
      .ok (cs.map fun c => recordAt F guest binary 0 c.1 ((fromHex c.2).getD [])) := by
  induction cs generalizing k with
  | nil => rfl
  | cons c cs ih =>
      obtain ⟨argv, stdinHex⟩ := c
      simp only [recordCases, recordStable_steady h, ih, List.map_cons]

/-- The cases that nominate some probes. -/
def nominations (F : Type) (ps : List Probe) : Json F :=
  .arr (ps.map fun p => nominate p.argv (encode p.stdin))

theorem Probe.Valid.parseCase {p : Probe} (h : p.Valid) :
    parseCase (nominate p.argv (encode p.stdin) : Json F) = .ok p.input :=
  parseCase_nominate.mpr ⟨h.args_le, fun a ha => ⟨h.arg_le a ha, h.no_nul a ha⟩, h.stdin_le⟩

variable [LawfulRuntime F]

/-- Nominated probes are read back, each once. -/
theorem parseCases_nominations {st : Style} (hst : st.Blank) {ps : List Probe}
    (hlen : ps.length ≤ maxCases) (hps : ∀ p ∈ ps, Requested F p) :
    parseCases F (encode (dumps st (nominations F ps))) = .ok (sights [] (ps.map Probe.input)) := by
  have hfits : (nominations F ps).Fits (Runtime.maxDepth F) := by
    have hdepth := LawfulRuntime.maxDepth_le (F := F)
    refine ⟨by omega, fitsList_iff.mpr (List.forall_mem_map.mpr fun p _ => ?_)⟩
    exact ⟨by omega, fits_strs _ (by omega), trivial, trivial⟩
  have hback : (nominations F ps).joined.dedupe = nominations F ps := by
    rw [nominations, readBack_arr, List.map_map]
    refine congrArg Json.arr (List.map_congr_left fun p hp => ?_)
    have hargv : p.argv.map joinPairs = p.argv := map_eq_self ((hps p hp).joined)
    have hhex : joinPairs (hex (encode p.stdin)) = hex (encode p.stdin) :=
      joinPairs_of_ascii (printable_hex _).isAscii
    rw [Function.comp_apply, nominate, readBack_record]
    · simp only [List.map_cons, List.map_nil, readBack_strs, hargv, Json.joined, hhex, Json.dedupe]
    · show ∀ k ∈ [py "argv", py "stdin_hex"], joinPairs k = k
      decide
    · simp [Dict.keys]
  have hcases : (ps.map fun p => (nominate p.argv (encode p.stdin) : Json F)).mapM parseCase =
      .ok (ps.map Probe.input) := by
    rw [mapM_ok, List.forall₂_map_left_iff, List.forall₂_map_right_iff, List.forall₂_same]
    exact fun p hp => (hps p hp).valid.parseCase
  rw [parseCases, loads_dumps_joined hst hfits, hback, nominations]
  show (if _ then _ else _) = _
  rw [if_pos (by simpa using hlen), hcases]
  rfl

omit [LawfulRuntime F] in
/-- A readable candidate for a steady program reaches the job. -/
theorem prepare_steady {ctx : ReplayContext} (hsteady : Steady F ctx.guest) {files : Dict Bytes}
    (hfiles : candidateFiles F ctx.candidate = .ok files) {source : PyStr}
    (hscalar : NoSurrogate source) (hmodel : files.lookup (py "model.c") = some (encode source))
    (hparams : py "params.json" ∉ files.keys) {raw : Bytes}
    (hraw : files.lookup (py "cases.json") = some raw) {cases : List Input}
    (hcases : parseCases F raw = .ok cases) :
    ∃ r, prepare F ctx = .ok r ∧ r.source = source ∧ r.recorded = cases.map fun c =>
      recordAt F ctx.guest ctx.binary 0 c.1 ((fromHex c.2).getD []) := by
  have hsource := decodeUtf8_encode .strict hscalar
  simp only [prepare, hfiles, hmodel, hsource, hparams, if_false, hraw, Option.getD_some, hcases,
    recordCases_steady hsteady]
  exact ⟨_, rfl, rfl, rfl⟩

/-- **A nominated probe is judged by the trace that it showed.**  Let a candidate have a readable
model, and nominate runs of a steady program that the operation was asked for.  Then it reaches
the job; the traces it is judged by are those that the operation showed, but for the name of the
program, and no others are added but hidden ones. -/
theorem probe_is_truth {ctx : ReplayContext} (hsteady : Steady F ctx.guest) {st : Style}
    (hst : st.Blank) {ps : List Probe} (hlen : ps.length ≤ maxCases)
    (hps : ∀ p ∈ ps, Requested F p) {files : Dict Bytes}
    (hfiles : candidateFiles F ctx.candidate = .ok files) {source : PyStr}
    (hscalar : NoSurrogate source) (hmodel : files.lookup (py "model.c") = some (encode source))
    (hparams : py "params.json" ∉ files.keys)
    (hcases : files.lookup (py "cases.json") = some (encode (dumps st (nominations F ps))))
    (prog : PyStr) :
    ∃ r, prepare F ctx = .ok r ∧ r.source = source ∧
      (∀ p ∈ ps, ∃ t ∈ r.recorded, ∀ k, executeProbe F ctx.guest prog k p =
        showTrace F p.quiet { t with argv0 := pathName prog }) ∧
      ∀ t ∈ r.recorded, ∃ p ∈ ps, t.input = p.input := by
  have hread := parseCases_nominations hst hlen hps
  obtain ⟨r, hr, hsrc, hrec⟩ := prepare_steady hsteady hfiles hscalar hmodel hparams hcases hread
  refine ⟨r, hr, hsrc, ?_, ?_⟩
  · -- what was requested is among the nominated inputs, under the name of the binary
    intro p hp
    refine ⟨recordAt F ctx.guest ctx.binary 0 p.argv (encode p.stdin), ?_, fun k => ?_⟩
    · rw [hrec]
      have hmem : p.input ∈ sights [] (ps.map Probe.input) :=
        mem_sights.mpr (.inr (List.mem_map_of_mem hp))
      have := List.mem_map_of_mem (f := fun c : Input =>
        recordAt F ctx.guest ctx.binary 0 c.1 ((fromHex c.2).getD [])) hmem
      simpa only [Probe.input, fromHex_hex, Option.getD_some] using this
    · simp only [executeProbe, recordStable_steady hsteady]
      rw [hsteady prog ctx.binary 0 0]
  · -- and a recorded trace starts from one of them, as none was known before
    intro t ht
    rw [hrec] at ht
    obtain ⟨c, hc, rfl⟩ := List.mem_map.mp ht
    rcases mem_sights.mp hc with h | h
    · exact absurd h List.not_mem_nil
    · obtain ⟨p, hp, rfl⟩ := List.mem_map.mp h
      refine ⟨p, hp, ?_⟩
      simp only [Probe.input, fromHex_hex, Option.getD_some]
      rfl

end Truth

/-! ### What is shown -/

/-- The sizes of a trace are those of a 64-bit host, and the exit code is that of a register. -/
structure Addressable (t : Trace) : Prop where
  argv : (t.argv0 :: t.argv).length < 2 ^ 63
  arg : ∀ s ∈ t.argv0 :: t.argv, s.length < 2 ^ 63
  stdin : t.stdinHex.length < 2 ^ 63
  stdout : t.stdout.length < 2 ^ 63
  stderr : t.stderr.length < 2 ^ 63
  exitCode : t.exitCode.natAbs < 2 ^ 64
  files : t.filesWritten.length < 2 ^ 63
  file : ∀ f ∈ t.filesWritten, f.2.length < 2 ^ 63
  events : t.events.length < 2 ^ 63

theorem size_lt {n : ℕ} (h : n < 2 ^ 63) : n < 10 ^ 19 := h.trans (by norm_num)

section Cut

variable {F : Type} [Runtime F]

/-- A text under the last level of `_cap`. -/
theorem length_cap_text_le {s : PyStr} (h : s.length < 2 ^ 63) (lvl : ℕ) :
    (render indent2 lvl (cap 64 (.str s : Json F))).length ≤ 1142 := by
  have hcap := length_capText_le (n := 64) (k := 19) (by decide) (size_lt h)
  have hquote := length_quote_le (capText 64 s)
  rw [cap, render]
  omega

/-- The object of a short error is shown. -/
theorem length_error_le {s : PyStr} (h : s.length ≤ 42) :
    (dumps plain (.obj [(py "error", .str s)] : Json F)).length ≤ shownLimit := by
  have hroom := entryRoom_str_le (F := F) (k := py "error") (m := 5) (by decide) h
  have hlimit : shownLimit = 65536 := rfl
  have hnl : (indent2.newline 0).length = 1 := rfl
  refine (length_plain_le _ 0 0).trans ((length_render_obj_le indent2 0 _).trans ?_)
  simp only [zero_add, List.map_cons, List.map_nil, List.sum_cons, List.sum_nil]
  omega

/-- A text that says how many items are left out. -/
theorem length_left_out_le {n : ℕ} (h : n < 2 ^ 63) (pre post : PyStr) (hpre : pre.length ≤ 5)
    (hpost : post.length ≤ 8) (lvl : ℕ) :
    (render indent2 lvl (.str (pre ++ natText n ++ post) : Json F)).length ≤ 386 := by
  have hdigits := length_natText_le (k := 19) (by decide) (size_lt h)
  have hquote := length_quote_le (pre ++ natText n ++ post)
  rw [render]
  simp only [List.length_append] at hquote
  omega

theorem sum_map_le {α : Type} {f : α → ℕ} {as : List α} {m n : ℕ} (hf : ∀ a ∈ as, f a ≤ m)
    (hlen : as.length ≤ n) : (as.map f).sum ≤ n * m := by
  have hsum := List.sum_le_card_nsmul (as.map f) m (List.forall_mem_map.mpr hf)
  rw [List.length_map, smul_eq_mul] at hsum
  exact hsum.trans (Nat.mul_le_mul_right m hlen)

/-- A list is cut to sixteen items, and a text for the others. -/
theorem length_cap_arr_le {xs : List (Json F)} {lvl m : ℕ} (hlen : xs.length < 2 ^ 63)
    (hx : ∀ x ∈ xs, (render indent2 (lvl + 1) (cap 64 x)).length ≤ m) (hm : 386 ≤ m) :
    (render indent2 lvl (cap 64 (.arr xs))).length ≤ 2 * lvl + 3 + 17 * (2 * lvl + 4 + m) := by
  -- sixteen items, and one that counts the rest if there is a rest
  obtain ⟨ys, hcap, hcount, hys⟩ : ∃ ys : List (Json F), cap 64 (.arr xs) = .arr ys ∧
      ys.length ≤ 17 ∧ ∀ y ∈ ys, (render indent2 (lvl + 1) y).length ≤ m := by
    refine ⟨_, rfl, ?_, ?_⟩
    · have htake := List.length_take_le 16 (capList 64 xs)
      rw [List.length_append]
      split_ifs
      · rw [List.length_singleton]
        omega
      · rw [List.length_nil]
        omega
    · intro y hy
      rw [capList_eq_map] at hy
      rcases List.mem_append.mp hy with hy | hy
      · obtain ⟨x, hmem, rfl⟩ := List.mem_map.mp (List.mem_of_mem_take hy)
        exact hx x hmem
      · split_ifs at hy
        · rw [List.mem_singleton.mp hy]
          exact (length_left_out_le (by omega) _ _ (by decide) (by decide) _).trans hm
        · exact absurd hy List.not_mem_nil
  have hroom : ∀ y ∈ ys, 1 + indent2.itemPad.length + (indent2.newline (lvl + 1)).length +
      (render indent2 (lvl + 1) y).length ≤ 2 * lvl + 4 + m := by
    intro y hy
    have := hys y hy
    rw [length_itemPad_indent2, length_newline_indent2]
    omega
  have hle := length_render_arr_le indent2 lvl ys
  have hsum := sum_map_le hroom hcount
  rw [length_newline_indent2] at hle
  rw [hcap]
  omega

/-- A dictionary is cut to sixteen entries, and a text for the others. -/
theorem length_cap_obj_le {d : Dict (Json F)} {lvl m : ℕ} (hlen : d.length < 2 ^ 63)
    (hd : ∀ e ∈ d, (render indent2 (lvl + 1) (cap 64 e.2)).length ≤ m) (hm : 386 ≤ m) :
    (render indent2 lvl (cap 64 (.obj d))).length ≤ 2 * lvl + 3 + 17 * (2 * lvl + 776 + m) := by
  obtain ⟨out, hcap, hcount, hout⟩ : ∃ out : Dict (Json F), cap 64 (.obj d) = .obj out ∧
      out.length ≤ 17 ∧
        ∀ e ∈ out, e.1.length ≤ 64 ∧ (render indent2 (lvl + 1) e.2).length ≤ m := by
    -- keys are cut as well, and two that are cut to the same are one
    have hkept : ∀ e ∈ Dict.update [] ((capDict 64 d).take 16),
        e.1.length ≤ 64 ∧ (render indent2 (lvl + 1) e.2).length ≤ m := by
      intro e he
      rcases Dict.mem_update he with he | he
      · exact absurd he List.not_mem_nil
      rw [capDict_eq_map] at he
      obtain ⟨e', hmem, rfl⟩ := List.mem_map.mp (List.mem_of_mem_take he)
      exact ⟨List.length_take_le _ _, hd e' hmem⟩
    have hlength : (Dict.update [] ((capDict 64 d).take 16)).length ≤ 16 :=
      (Dict.length_update_le _ _).trans (by simp)
    refine ⟨_, rfl, ?_, ?_⟩
    · split_ifs
      · exact (Dict.length_set_le _ _ _).trans (by omega)
      · omega
    · intro e he
      split_ifs at he
      · rcases Dict.mem_set he with he | rfl
        · exact hkept e he
        · exact ⟨(by decide : (py "...").length ≤ 64), (length_left_out_le (by omega) _ _ (by decide) (by decide) _).trans hm⟩
      · exact hkept e he
  have hroom : ∀ e ∈ out, entryRoom indent2 (lvl + 1) e ≤ 2 * lvl + 776 + m := by
    intro e he
    obtain ⟨hkey, hval⟩ := hout e he
    have hquote := length_quote_le e.1
    rw [entryRoom, length_itemPad_indent2, length_keyPad_indent2, length_newline_indent2]
    omega
  have hle := length_render_obj_le indent2 lvl out
  have hsum := sum_map_le hroom hcount
  rw [length_newline_indent2] at hle
  rw [hcap]
  omega

/-- The last level of `_cap` makes every trace fit. -/
theorem fitting_brief {t : Trace} (h : Addressable t) : Fitting (cap 64
    (.obj (Dict.set t.quiet (py "events_omitted") (.int t.events.length)) : Json F)) := by
  -- at 64 the dictionary is listed with its own seven keys, as none is cut
  have hbrief : Dict.set t.quiet (py "events_omitted") (.int t.events.length) =
      [(py "argv", (strs (t.argv0 :: t.argv) : Json F)), (py "stdin_hex", .str t.stdinHex),
        (py "stdout", .str t.stdout), (py "stderr", .str t.stderr),
        (py "exit_code", .int t.exitCode), (py "files_written", filesJson t.filesWritten),
        (py "events_omitted", .int t.events.length)] := by
    simp [Trace.quiet, Trace.toJson, Json.obj?, Dict.set]
  have hsmall : Small 64 [(py "argv", (strs (t.argv0 :: t.argv) : Json F)),
      (py "stdin_hex", .str t.stdinHex), (py "stdout", .str t.stdout), (py "stderr", .str t.stderr),
      (py "exit_code", .int t.exitCode), (py "files_written", filesJson t.filesWritten),
      (py "events_omitted", .int t.events.length)] := by
    refine ⟨by simp, ?_, by simp [Dict.keys]⟩
    simp only [List.forall_mem_cons]
    exact ⟨by decide, by decide, by decide, by decide, by decide, by decide, by decide, by simp⟩
  -- the two collections take most of the room
  have hargv : (render indent2 1 (cap 64 (strs (t.argv0 :: t.argv) : Json F))).length ≤ 19521 := by
    refine length_cap_arr_le (m := 1142) (by simpa using h.argv) ?_ (by decide)
    rw [List.forall_mem_map]
    exact fun s hs => length_cap_text_le (h.arg s hs) 2
  have hfiles : (render indent2 1 (cap 64 (filesJson t.filesWritten : Json F))).length ≤ 32645 := by
    refine length_cap_obj_le (m := 1142) (by simpa using h.files) ?_ (by decide)
    rw [List.forall_mem_map]
    exact fun f hf => length_cap_text_le (h.file f hf) 2
  have hstdin := length_cap_text_le (F := F) h.stdin 1
  have hstdout := length_cap_text_le (F := F) h.stdout 1
  have hstderr := length_cap_text_le (F := F) h.stderr 1
  have hcode := length_intText_le (k := 20) (by decide) (h.exitCode.trans (by norm_num))
  have hevents := length_intText_le (i := t.events.length) (k := 19) (by decide)
    (size_lt (by simpa using h.events))
  have hlayout : indent2.itemPad.length = 0 ∧ indent2.keyPad.length = 1 ∧
      (indent2.newline 0).length = 1 ∧ (indent2.newline 1).length = 3 := ⟨rfl, rfl, rfl, rfl⟩
  have hkey : ∀ k : PyStr, k.length ≤ 14 → (quote k).length ≤ 170 := fun k hk =>
    (length_quote_le k).trans (by omega)
  have hkeys : ∀ k ∈ [py "argv", py "stdin_hex", py "stdout", py "stderr", py "exit_code",
      py "files_written", py "events_omitted"], (quote k).length ≤ 170 := by
    intro k hk
    exact hkey k ((by decide : ∀ k ∈ [py "argv", py "stdin_hex", py "stdout", py "stderr",
      py "exit_code", py "files_written", py "events_omitted"], k.length ≤ 14) k hk)
  simp only [List.forall_mem_cons] at hkeys
  obtain ⟨h1, h2, h3, h4, h5, h6, h7, -⟩ := hkeys
  rw [Fitting, hbrief, cap_obj hsmall, dumpsSorted, length_render_sortKeys]
  refine (length_render_obj_le indent2 0 _).trans_lt ?_
  simp only [zero_add, List.map_cons, List.map_nil, List.sum_cons, List.sum_nil, entryRoom,
    hlayout, feedbackLimit]
  simp only [cap, render] at *
  omega

/-- What `_capped` returns fits, also without the layout it was measured in. -/
theorem capped_length {v out : Json F} (h : capped v = some out) :
    (dumps plain out).length ≤ shownLimit := by
  obtain ⟨n, -, hn⟩ := List.exists_of_findSome?_eq_some h
  split_ifs at hn with hfit
  obtain rfl := Option.some.inj hn
  have hplain := length_plain_le (cap n v) 0 0
  rw [Fitting, dumpsSorted, length_render_sortKeys, feedbackLimit] at hfit
  rw [dumps, shownLimit]
  omega

theorem capped_brief {t : Trace} (h : Addressable t) :
    (capped (.obj (Dict.set t.quiet (py "events_omitted") (.int t.events.length)) : Json F)).isSome
      = true := by
  rw [capped, List.findSome?_isSome_iff]
  refine ⟨64, by decide, ?_⟩
  rw [if_pos (fitting_brief h)]
  rfl

variable [LawfulRuntime F]

/-- A trace is shown whole, or its file is. -/
theorem showTrace_spec {t : Trace} (h : Addressable t) (quiet : Bool) :
    ∃ r, showTrace F quiet t = some r ∧ (dumps plain r.shown).length ≤ shownLimit ∧
      r.succeeded = true ∧ ((r.files = [] ∧ r.shown = if quiet then .obj t.quiet else t.toJson) ∨
        ∃ b, r.files = [(py "trace.json", b)] ∧ loads b = some (t.joined.toJson (F := F))) := by
  by_cases hfit : (dumps plain (if quiet then .obj t.quiet else t.toJson : Json F)).length ≤
      shownLimit - 1024
  · refine ⟨_, if_pos hfit, hfit.trans (Nat.sub_le _ _), rfl, .inl ⟨rfl, rfl⟩⟩
  · obtain ⟨brief, hbrief⟩ := Option.isSome_iff_exists.mp (capped_brief (F := F) h)
    refine ⟨⟨true, brief, [(py "trace.json", encode (dumps plain (t.toJson : Json F)))]⟩, ?_,
      capped_length hbrief, rfl, .inr ⟨_, rfl, ?_⟩⟩
    · rw [showTrace, if_neg hfit, hbrief, Option.map_some]
    · have hcode : t.exitCode.natAbs < 10 ^ maxStrDigits :=
        (h.exitCode.trans (by norm_num : 2 ^ 64 < 10 ^ 20)).trans_le
          (Nat.pow_le_pow_right (by decide) (by decide))
      have hdepth := LawfulRuntime.maxDepth_le (F := F)
      rw [loads_dumps_joined plain_blank (Trace.fits hcode (by omega)), Trace.joined_toJson]

/-- **What the operation shows.**  On a host of 64 bits it always has a result; what is shown fits
the limit; and it is that the recordings differ, or the trace, or else the whole trace can be read
from the file beside. -/
theorem execute_shown {guest : Guest} {prog : PyStr} {k : ℕ} {p : Probe}
    (hsize : ∀ t, recordStable F guest prog k p.argv (encode p.stdin) = some t → Addressable t) :
    ∃ r, executeProbe F guest prog k p = some r ∧ (dumps plain r.shown).length ≤ shownLimit ∧
      ((recordStable F guest prog k p.argv (encode p.stdin) = none ∧ r.succeeded = false ∧
          r.files = []) ∨
        ∃ t, recordStable F guest prog k p.argv (encode p.stdin) = some t ∧ r.succeeded = true ∧
          ((r.files = [] ∧ r.shown = if p.quiet then .obj t.quiet else t.toJson) ∨
            ∃ b, r.files = [(py "trace.json", b)] ∧
              loads b = some (t.joined.toJson (F := F)))) := by
  rcases ht : recordStable F guest prog k p.argv (encode p.stdin) with - | t
  · refine ⟨_, by rw [executeProbe, ht], ?_, .inl ⟨rfl, rfl, rfl⟩⟩
    exact length_error_le (by decide)
  · obtain ⟨r, hr, hfit, hok, hshown⟩ := showTrace_spec (F := F) (hsize t ht) p.quiet
    exact ⟨r, by rw [executeProbe, ht]; exact hr, hfit, .inr ⟨t, rfl, hok, hshown⟩⟩

end Cut

/-! ### The echoing program -/

/-- The input of one octet, asked for. -/
def probeA : Probe := ⟨[], py "a", false⟩

theorem probeA_valid : probeA.Valid where
  args_le := Nat.zero_le _
  arg_le := fun _ h => absurd h List.not_mem_nil
  no_nul := fun _ h => absurd h List.not_mem_nil
  scalar := (printable_py (by decide)).noSurrogate
  stdin_le := (by decide : (encode (py "a")).length ≤ maxStdin)

/-- Arguments that pass stand in a JSON text. -/
theorem Probe.Valid.requested {F : Type} [Runtime F] [LawfulRuntime F] {p : Probe} (h : p.Valid)
    (hargv : p.argv.map joinPairs = p.argv) (hstdin : joinPairs p.stdin = p.stdin) :
    Requested F p := by
  have hdepth := LawfulRuntime.maxDepth_le (F := F)
  have hfits : (p.toJson : Json F).Fits (Runtime.maxDepth F) :=
    ⟨by omega, fits_strs _ (by omega), trivial, trivial, trivial⟩
  have hback : (p.toJson : Json F).joined.dedupe = p.toJson := by
    rw [Probe.toJson, readBack_record]
    · simp only [List.map_cons, List.map_nil, readBack_strs, hargv, Json.joined, hstdin, Json.dedupe]
    · show ∀ k ∈ [py "argv", py "stdin", py "quiet"], joinPairs k = k
      decide
    · simp [Dict.keys]
  refine ⟨dumps plain (p.toJson : Json F), p.toJson, ?_, ?_, parseProbe_toJson h⟩
  · intro c hc
    have := isAscii_render plain_blank (p.toJson : Json F) 0 c hc
    exact isSurrogate_false.mpr (by omega)
  · rw [loadsText_dumps plain_blank hfits, hback]

theorem steady_echo : Steady ZeroFloat echoGuest := by
  intro binary binary' k k' argv stdin
  rw [recordAt_echo, recordAt_echo]
  rfl

/-- The candidate that nominates the probe. -/
def probedContext : ReplayContext :=
  { echoContext with candidate := [(py "model.c", []),
      (py "cases.json", encode (dumps plain (nominations ZeroFloat [probeA])))] }

theorem requested_probeA : ∀ p ∈ [probeA], Requested ZeroFloat p := by
  intro p hp
  rw [List.mem_singleton.mp hp]
  exact probeA_valid.requested rfl (joinPairs_of_ascii (printable_py (by decide)).isAscii)

theorem probe_is_truth_echo :
    ∃ r, prepare ZeroFloat probedContext = .ok r ∧ r.source = [] ∧
      (∀ p ∈ [probeA], ∃ t ∈ r.recorded, ∀ k,
        executeProbe ZeroFloat echoGuest (py "prog") k p =
          showTrace ZeroFloat p.quiet { t with argv0 := pathName (py "prog") }) ∧
      ∀ t ∈ r.recorded, ∃ p ∈ [probeA], t.input = p.input :=
  probe_is_truth steady_echo plain_blank (by decide) requested_probeA rfl
    (fun _ h => absurd h List.not_mem_nil) rfl (by decide) rfl (py "prog")

/-- A program that writes a text and exits, and its canonical trace. -/
def printingGuest (out : Bytes) : Guest := fun k name argv stdin =>
  { echoGuest k name argv stdin with out := out }

def printedTrace (out : Bytes) (name : PyStr) (argv : List PyStr) (stdin : Bytes) : Trace :=
  { echoTrace name argv stdin with stdout := hex out }

theorem recordStable_printing (out : Bytes) (name : PyStr) (k : ℕ) (argv : List PyStr)
    (stdin : Bytes) : recordStable ZeroFloat (printingGuest out) name k argv stdin =
      some (printedTrace out (pathName name) argv stdin) := by
  have hrecord : ∀ name k argv stdin, recordAt ZeroFloat (printingGuest out) name k argv stdin =
      printedTrace out (pathName name) argv stdin := fun _ _ _ _ => rfl
  have hsteady : Steady ZeroFloat (printingGuest out) := by
    intro binary binary' k k' argv stdin
    rw [hrecord, hrecord]
    rfl
  rw [recordStable_steady hsteady, hrecord]

/-- A text of 64 KiB does not fit. -/
def manyBytes : Bytes := List.replicate (32 * 1024) 0x61

theorem printed_too_long (name : PyStr) (argv : List PyStr) (stdin : Bytes) : shownLimit <
    (dumps plain ((printedTrace manyBytes name argv stdin).toJson : Json ZeroFloat)).length := by
  have hquote : (quote (hex manyBytes)).length = 2 * (32 * 1024) + 2 := by
    have hraw : ∀ c ∈ hex manyBytes, escapeChar c = [c] := by
      have hbyte : ∀ n, ∀ c ∈ hex (List.replicate n 0x61), escapeChar c = [c] := by
        intro n
        induction n with
        | zero => exact fun c hc => absurd hc List.not_mem_nil
        | succ n ih =>
            rw [List.replicate_succ, hex]
            exact List.forall_mem_cons.mpr
              ⟨by decide, List.forall_mem_cons.mpr ⟨by decide, ih⟩⟩
      exact hbyte _
    rw [length_quote_raw hraw, length_hex, manyBytes, List.length_replicate]
  have hentry : (py "stdout", Json.str (F := ZeroFloat) (hex manyBytes)) ∈
      [(py "argv", strs (name :: argv)), (py "stdin_hex", .str (hex stdin)),
        (py "stdout", .str (hex manyBytes))] := by simp
  have hle : (render plain 1 (Json.str (F := ZeroFloat) (hex manyBytes))).length ≤
      (dumps plain ((printedTrace manyBytes name argv stdin).toJson : Json ZeroFloat)).length :=
    length_render_le_obj plain 0 (List.mem_append_left _ hentry)
  rw [render, hquote] at hle
  exact lt_of_lt_of_le (by decide) hle

theorem addressable_printed {out : Bytes} (h : out.length ≤ 32 * 1024) :
    Addressable (printedTrace out (py "prog") [] [0x61]) where
  argv := (by decide : [py "prog"].length < 2 ^ 63)
  arg := (by decide : ∀ s ∈ [py "prog"], s.length < 2 ^ 63)
  stdin := (by decide : (hex [0x61]).length < 2 ^ 63)
  stdout := by
    show (hex out).length < 2 ^ 63
    rw [length_hex]
    omega
  stderr := (by decide : 0 < 2 ^ 63)
  exitCode := (by decide : 0 < 2 ^ 64)
  files := (by decide : 0 < 2 ^ 63)
  file := fun f hf => absurd hf List.not_mem_nil
  events := (by decide : 1 < 2 ^ 63)

theorem execute_shown_printing :
    (∃ r, executeProbe ZeroFloat (printingGuest [0x61]) (py "prog") 0 probeA = some r ∧
      (dumps plain r.shown).length ≤ shownLimit ∧ r.succeeded = true ∧ r.files = [] ∧
      r.shown = (printedTrace [0x61] (py "prog") [] [0x61]).toJson) ∧
    ∃ r b, executeProbe ZeroFloat (printingGuest manyBytes) (py "prog") 0 probeA = some r ∧
      (dumps plain r.shown).length ≤ shownLimit ∧ r.succeeded = true ∧
      r.files = [(py "trace.json", b)] ∧
      loads b = some ((printedTrace manyBytes (py "prog") [] [0x61]).joined.toJson : Json ZeroFloat) := by
  have hstable : ∀ out, recordStable ZeroFloat (printingGuest out) (py "prog") 0 probeA.argv
      (encode probeA.stdin) = some (printedTrace out (py "prog") [] [0x61]) :=
    fun out => recordStable_printing out _ _ _ _
  have hsize : ∀ out : Bytes, out.length ≤ 32 * 1024 → ∀ t, recordStable ZeroFloat
      (printingGuest out) (py "prog") 0 probeA.argv (encode probeA.stdin) = some t →
        Addressable t := by
    intro out hout t ht
    obtain rfl := Option.some.inj ((hstable out).symm.trans ht)
    exact addressable_printed hout
  constructor
  · obtain ⟨r, hr, hfit, ⟨hnone, -⟩ | ⟨t, ht, hok, hshown⟩⟩ := execute_shown (hsize [0x61] (by decide))
    · rw [hstable] at hnone
      cases hnone
    obtain rfl := Option.some.inj ((hstable _).symm.trans ht)
    -- the trace fits, so nothing stands beside it
    have hwhole : executeProbe ZeroFloat (printingGuest [0x61]) (py "prog") 0 probeA =
        some ⟨true, (printedTrace [0x61] (py "prog") [] [0x61]).toJson, []⟩ := by
      have hfits : (dumps plain ((printedTrace [0x61] (py "prog") [] [0x61]).toJson :
          Json ZeroFloat)).length ≤ shownLimit - 1024 := by decide +kernel
      have hloud : probeA.quiet = false := rfl
      rw [executeProbe, hstable]
      simp only [showTrace, hloud, Bool.false_eq_true, if_false, if_pos hfits]
    obtain rfl := Option.some.inj (hr.symm.trans hwhole)
    exact ⟨_, hr, hfit, rfl, rfl, rfl⟩
  · obtain ⟨r, hr, hfit, ⟨hnone, -⟩ | ⟨t, ht, hok, hshown⟩⟩ :=
      execute_shown (hsize manyBytes (List.length_replicate ..).le)
    · rw [hstable] at hnone
      cases hnone
    obtain rfl := Option.some.inj ((hstable _).symm.trans ht)
    rcases hshown with ⟨-, hshown⟩ | ⟨b, hfiles, hloads⟩
    · have hlong := printed_too_long (py "prog") [] [0x61]
      rw [hshown] at hfit
      exact absurd hfit (Nat.not_le.mpr hlong)
    · exact ⟨r, b, hr, hfit, hok, hfiles, hloads⟩

end ReSchema
