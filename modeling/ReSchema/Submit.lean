/-
ReSchema/Submit.lean

The worker's `submit` (`tools/worker/submit`).

The host captures one file of the worker, `result.json`.  The helper reads
`model.c` and the declaration as text, refuses a declaration that is no JSON
list, and packs both into that file.  A `WorkDir` is what it finds.

The checkers read from the file what the worker wrote, octet by octet, but for
the ends of lines (`submit_round_trip`).  So nothing that the helper packs is
refused before its declaration is read (`submitted_judged`), and the duplicate
guard tells two submissions of one source apart exactly where their
declarations differ as JSON values (`submitted_repeat_iff`).
-/
import ReSchema.Fingerprint
import ReSchema.FunctionGate
import ReSchema.Py.Utf8

namespace ReSchema

open Py

/-! ### The helper -/

/-- A file as `open` finds it: not there, not to be read, or its octets. -/
inductive WorkFile
  | missing
  | unreadable
  | content (b : Bytes)

/-- The worker's directory: whether `function.json` is in it, and its `workspace`. -/
structure WorkDir where
  function : Bool
  workspace : PyStr → WorkFile

/-- How the helper ends without a submission. -/
inductive SubmitExit
  | missing (name : PyStr)
  | unreadable (name : PyStr)
  | notJson (decl : PyStr)
  | notList (decl : PyStr)
  | tooLarge

/-- The message of `sys.exit`; `work` is the directory, and `e` the text of the exception. -/
def SubmitExit.text (work e : PyStr) : SubmitExit → PyStr
  | .missing name => py "submit: write " ++ work ++ py "/workspace/" ++ name ++ py " first"
  | .unreadable name => py "submit: " ++ name ++ py ": " ++ e
  | .notJson decl => py "submit: " ++ decl ++ py " is not JSON: " ++ e
  | .notList decl => py "submit: " ++ decl ++ py " must be a JSON list"
  | .tooLarge => py "submit: model.c and its declaration exceed 1 MiB"

/-- The name of the declaration. -/
def WorkDir.decl (w : WorkDir) : PyStr :=
  if w.function then py "params.json" else py "cases.json"

/-- One round of the loop over the two names: the text, where there is one. -/
def readWork (w : WorkDir) (name : PyStr) : Except SubmitExit (Dict PyStr) :=
  match w.workspace name with
  | .missing => if name = py "model.c" ∨ w.function then .error (.missing name) else .ok []
  | .unreadable => .error (.unreadable name)
  | .content b =>
      match decodeUtf8 .strict b with
      | none => .error (.unreadable name)
      | some s => .ok [(name, universalNewlines s)]

section Submit

variable (F : Type) [Runtime F]

/-- The declaration is a JSON list, if it is there. -/
def checkDecl (decl : PyStr) (files : Dict PyStr) : Except SubmitExit Unit :=
  match files.lookup decl with
  | none => .ok ()
  | some text =>
      match loadsText (F := F) text with
      | none => .error (.notJson decl)
      | some (.arr _) => .ok ()
      | some _ => .error (.notList decl)

/-- `json.dumps(files)`. -/
def bundleText (files : Dict PyStr) : PyStr :=
  dumps plain (.obj (files.map fun e => (e.1, .str e.2)) : Json F)

/-- What the helper writes to `result.json`, or how it ends. -/
def submit (w : WorkDir) : Except SubmitExit Bytes := do
  let model ← readWork w (py "model.c")
  let decl ← readWork w w.decl
  checkDecl F w.decl (model ++ decl)
  let result := encode (bundleText F (model ++ decl))
  if 1024 * 1024 < result.length then .error .tooLarge else .ok result

end Submit

/-! ### What is packed -/

/-- What a file holds, with the ends of its lines as text mode reads them. -/
def WorkFile.packed : WorkFile → Option Bytes
  | .content b => some (newlineBytes b)
  | _ => none

/-- The files as the checkers get them. -/
def WorkDir.submitted (w : WorkDir) : Dict Bytes :=
  [py "model.c", w.decl].filterMap fun n => (w.workspace n).packed.map fun b => (n, b)

/-- The candidate of a submission: `result.json`, and no file beside it. -/
structure CandidateOf (result : Bytes) (candidate : Dict Bytes) : Prop where
  result : candidate.lookup (py "result.json") = some result
  beside : directFiles candidate = []

/-- The texts that `submit` packs. -/
structure Texts (F : Type) [Runtime F] (w : WorkDir) (texts : Dict PyStr) : Prop where
  submitted : w.submitted = texts.map fun e => (e.1, encode e.2)
  keys : texts.keys = [py "model.c", w.decl] ∨ texts.keys = [py "model.c"] ∧ w.function = false
  scalar : ∀ e ∈ texts, NoSurrogate e.2
  list : ∀ text, texts.lookup w.decl = some text →
    ∃ xs, loadsText (F := F) text = some (.arr xs)

theorem decl_ne_model (w : WorkDir) : w.decl ≠ py "model.c" := by
  unfold WorkDir.decl
  split_ifs <;> decide

section Packed

variable {F : Type} [Runtime F] {w : WorkDir} {result : Bytes} {candidate : Dict Bytes}

omit [Runtime F] in
theorem readWork_ok {name : PyStr} {d : Dict PyStr} (h : readWork w name = .ok d) :
    (∃ s, d = [(name, s)] ∧ NoSurrogate s ∧ (w.workspace name).packed = some (encode s)) ∨
      (d = [] ∧ name ≠ py "model.c" ∧ w.function = false ∧ (w.workspace name).packed = none) := by
  rw [readWork] at h
  rcases hf : w.workspace name with - | - | b
  · simp only [hf] at h
    split_ifs at h with hno
    obtain rfl := Except.ok.inj h
    rw [not_or, Bool.not_eq_true] at hno
    exact .inr ⟨rfl, hno.1, hno.2, rfl⟩
  · simp only [hf] at h
    cases h
  · simp only [hf] at h
    rcases hs : decodeUtf8 .strict b with - | s
    · simp only [hs] at h
      cases h
    · simp only [hs] at h
      obtain rfl := Except.ok.inj h
      obtain ⟨rfl, hno⟩ := decodeUtf8_strict_iff.mp hs
      refine .inl ⟨_, rfl, hno.universalNewlines, ?_⟩
      rw [encode_universalNewlines]
      rfl

theorem checkDecl_ok {decl : PyStr} {files : Dict PyStr} (h : checkDecl F decl files = .ok ())
    {text : PyStr} (ht : files.lookup decl = some text) :
    ∃ xs, loadsText (F := F) text = some (.arr xs) := by
  simp only [checkDecl, ht] at h
  rcases hv : loadsText (F := F) text with - | v
  · simp [hv] at h
  · cases v with
    | arr xs => exact ⟨xs, rfl⟩
    | _ => simp [hv] at h

/-- What a submission was packed from. -/
theorem submit_ok (h : submit F w = .ok result) :
    ∃ texts, Texts F w texts ∧ result = encode (bundleText F texts) := by
  rcases hmodel : readWork w (py "model.c") with e | model
  · simp [submit, hmodel, bind, Except.bind] at h
  rcases hdecl : readWork w w.decl with e | decl
  · simp [submit, hmodel, hdecl, bind, Except.bind] at h
  rcases hcheck : checkDecl F w.decl (model ++ decl) with e | u
  · simp [submit, hmodel, hdecl, hcheck, bind, Except.bind] at h
  simp only [submit, hmodel, hdecl, hcheck, bind, Except.bind] at h
  split_ifs at h
  refine ⟨model ++ decl, ?_, (Except.ok.inj h).symm⟩
  rcases readWork_ok hmodel with ⟨s, rfl, hs, hpack⟩ | ⟨-, hne, -⟩
  · rcases readWork_ok hdecl with ⟨t, rfl, ht, hpack'⟩ | ⟨rfl, -, hf, hpack'⟩
    · refine ⟨by simp [WorkDir.submitted, hpack, hpack'], .inl rfl, ?_, fun _ => checkDecl_ok hcheck⟩
      simpa using ⟨hs, ht⟩
    · refine ⟨by simp [WorkDir.submitted, hpack, hpack'], .inr ⟨rfl, hf⟩, ?_,
        fun _ => checkDecl_ok hcheck⟩
      simpa using hs
  · exact absurd rfl hne

theorem Texts.name {texts : Dict PyStr} (h : Texts F w texts) {e : PyStr × PyStr} (he : e ∈ texts) :
    e.1 ∈ candidateNames ∧ joinPairs e.1 = e.1 := by
  have hdecl : w.decl ∈ candidateNames ∧ joinPairs w.decl = w.decl := by
    unfold WorkDir.decl
    split_ifs <;> decide
  have hmem : e.1 ∈ texts.keys := List.mem_map_of_mem he
  rcases h.keys with hk | ⟨hk, -⟩
  · rw [hk] at hmem
    simp only [List.mem_cons, List.not_mem_nil, or_false] at hmem
    rcases hmem with hn | hn
    · rw [hn]
      decide
    · rw [hn]
      exact hdecl
  · rw [hk] at hmem
    rw [List.mem_singleton.mp hmem]
    decide

theorem Texts.nodup {texts : Dict PyStr} (h : Texts F w texts) : texts.keys.Nodup := by
  rcases h.keys with hk | ⟨hk, -⟩
  · rw [hk]
    simpa using (decl_ne_model w).symm
  · rw [hk]
    exact List.nodup_singleton _

variable [LawfulRuntime F]

/-- The bundle is read as it was packed. -/
theorem loads_bundleText {texts : Dict PyStr} (h : Texts F w texts) :
    loads (encode (bundleText F texts)) =
      some (.obj (texts.map fun e => (e.1, .str e.2)) : Json F) := by
  apply loads_dumps plain_blank
  · refine ⟨lt_of_lt_of_le (by decide) (LawfulRuntime.maxDepth_le (F := F)), ?_⟩
    rw [fitsDict_iff]
    intro e he
    obtain ⟨e', -, rfl⟩ := List.mem_map.mp he
    trivial
  · refine ⟨?_, cleanDict_iff.mpr ?_⟩
    · have hkeys : Dict.keys (texts.map fun e => (e.1, (.str e.2 : Json F))) = texts.keys := by
        simp [Dict.keys]
      rw [hkeys]
      exact h.nodup
    · intro e he
      obtain ⟨e', he', rfl⟩ := List.mem_map.mp he
      exact ⟨(h.name he').2, joinPairs_scalar (h.scalar e' he')⟩

omit [LawfulRuntime F] in
theorem bundleFiles_texts {texts : Dict PyStr} (h : Texts F w texts) :
    bundleFiles (.obj (texts.map fun e => (e.1, .str e.2)) : Json F) = some w.submitted := by
  have hnames : ((texts.map fun e => (e.1, (.str e.2 : Json F))).all fun e =>
      decide (e.1 ∈ candidateNames)) = true := by
    rw [List.all_eq_true]
    intro e he
    obtain ⟨e', he', rfl⟩ := List.mem_map.mp he
    exact decide_eq_true (h.name he').1
  show (if _ then _ else _) = _
  rw [if_pos hnames, mapM_some, List.forall₂_map_left_iff, h.submitted, List.forall₂_map_right_iff]
  exact List.forall₂_same.mpr fun e _ => rfl

/-- What the checkers read of a submission. -/
theorem candidateFiles_submit (h : submit F w = .ok result) (hc : CandidateOf result candidate) :
    candidateFiles F candidate = .ok w.submitted := by
  obtain ⟨texts, ht, rfl⟩ := submit_ok h
  have hnodup : w.submitted.keys.Nodup := by
    rw [ht.submitted, Dict.keys, List.map_map]
    exact ht.nodup
  have hany : (w.submitted.any fun e => decide (e.1 ∈ Dict.keys ([] : Dict Bytes))) = false := by
    simp [Dict.keys]
  simp only [candidateFiles, hc.result, hc.beside, loads_bundleText ht, bundleFiles_texts ht, hany,
    Bool.false_eq_true, if_false]
  rw [Dict.update_nil hnodup]

omit [LawfulRuntime F] in
/-- The declaration that the helper accepted is the one the checkers parse. -/
theorem Texts.declared {texts : Dict PyStr} (h : Texts F w texts) {raw : Bytes}
    (hraw : w.submitted.lookup w.decl = some raw) :
    ∃ xs, loads (F := F) raw = some (.arr xs) ∧ (Json.arr xs).joined = .arr xs := by
  have hmem := Dict.mem_of_lookup_eq_some hraw
  rw [h.submitted] at hmem
  obtain ⟨e, he, heq⟩ := List.mem_map.mp hmem
  obtain ⟨hname, rfl⟩ := Prod.mk.inj heq
  have hlookup : texts.lookup w.decl = some e.2 :=
    Dict.lookup_eq_some_of_mem h.nodup (by rw [← hname]; exact he)
  obtain ⟨xs, hxs⟩ := h.list e.2 hlookup
  exact ⟨xs, loads_encode (h.scalar e he) hxs, joined_of_loadsText (h.scalar e he) hxs⟩

omit [LawfulRuntime F] in
theorem Texts.source {texts : Dict PyStr} (h : Texts F w texts) :
    ∃ s, w.submitted.lookup (py "model.c") = some (encode s) ∧ NoSurrogate s := by
  have hkey : py "model.c" ∈ texts.keys := by
    rcases h.keys with hk | ⟨hk, -⟩ <;> rw [hk] <;> simp
  obtain ⟨e, he, hname⟩ := List.mem_map.mp hkey
  refine ⟨e.2, ?_, h.scalar e he⟩
  apply Dict.lookup_eq_some_of_mem
  · rw [h.submitted, Dict.keys, List.map_map]
    exact h.nodup
  · rw [h.submitted, ← hname]
    exact List.mem_map_of_mem he

/-- **What is submitted is what is judged.**  The checkers read the worker's files octet by octet,
with the ends of lines as line feeds, and a declaration that is a JSON list. -/
theorem submit_round_trip (h : submit F w = .ok result) (hc : CandidateOf result candidate) :
    candidateFiles F candidate = .ok w.submitted ∧
      (∃ source, decodeUtf8 .strict ((w.submitted.lookup (py "model.c")).getD []) = some source) ∧
      ∀ raw, w.submitted.lookup w.decl = some raw → ∃ xs, loads (F := F) raw = some (.arr xs) := by
  refine ⟨candidateFiles_submit h hc, ?_, fun raw hraw => ?_⟩
  all_goals obtain ⟨texts, ht, -⟩ := submit_ok h
  · obtain ⟨s, hs, hno⟩ := ht.source
    rw [hs]
    exact ⟨s, decodeUtf8_encode .strict hno⟩
  · obtain ⟨xs, hxs, -⟩ := ht.declared hraw
    exact ⟨xs, hxs⟩

/-! ### What the checkers say before they judge -/

theorem decl_of_program (hw : w.function = false) : w.decl = py "cases.json" := by
  rw [WorkDir.decl, hw]
  rfl

theorem decl_of_function (hw : w.function = true) : w.decl = py "params.json" := by
  rw [WorkDir.decl, hw]
  rfl

omit [LawfulRuntime F] in
/-- No other file comes with a submission. -/
theorem Texts.not_mem {texts : Dict PyStr} (h : Texts F w texts) {n : PyStr}
    (hm : n ≠ py "model.c") (hd : n ≠ w.decl) : n ∉ w.submitted.keys := by
  have hkeys : w.submitted.keys = texts.keys := by
    rw [h.submitted, Dict.keys, List.map_map]
    rfl
  rw [hkeys]
  rcases h.keys with hk | ⟨hk, -⟩ <;> rw [hk] <;> simp [hm, hd]

/-- **A submission is only ever refused for what it declares.**  A program that was submitted
reaches the job, unless its cases are malformed or one of them is flaky; a function reaches the
gate, unless its parameters are malformed. -/
theorem submitted_judged (h : submit F w = .ok result) :
    (w.function = false → ∀ ctx : ReplayContext, CandidateOf result ctx.candidate →
      (∃ p, prepare F ctx = .ok p ∧ w.submitted.lookup (py "model.c") = some (encode p.source)) ∨
      (∃ why, parseCases F ((w.submitted.lookup (py "cases.json")).getD (encode (py "[]"))) =
          .error why ∧
        prepare F ctx = .error (replayReject (py "cases") (py "candidate") (detail why))) ∨
      ∃ argv, prepare F ctx =
        .error (replayReject (py "flaky-case") (py "recorded") [(py "argv", strs argv)])) ∧
    (w.function = true → ∀ candidate, CandidateOf result candidate → ∀ decodeError : Bytes → PyStr,
      ∃ raw source, w.submitted.lookup (py "params.json") = some raw ∧
        w.submitted.lookup (py "model.c") = some (encode source) ∧
        ((∃ params, paramsOf F raw = .ok params ∧
            readFunction (F := F) candidate decodeError = .ok (w.submitted, params, source)) ∨
          ∃ why, paramsOf F raw = .error why ∧
            readFunction (F := F) candidate decodeError = .error (specReject (why.take textCap)))) := by
  obtain ⟨texts, ht, -⟩ := submit_ok h
  obtain ⟨source, hsource, hno⟩ := ht.source
  have hdecode := decodeUtf8_encode .strict hno
  refine ⟨fun hw ctx hc => ?_, fun hw candidate hc decodeError => ?_⟩
  · -- what a program submits has no parameters, so the checker takes it for a program
    have hparams : py "params.json" ∉ w.submitted.keys := by
      apply ht.not_mem (by decide)
      rw [decl_of_program hw]
      decide
    rw [prepare]
    simp only [candidateFiles_submit h hc, hsource, hdecode, hparams, if_false]
    rcases hcases : parseCases F ((w.submitted.lookup (py "cases.json")).getD (encode (py "[]")))
      with why | cases
    · exact .inr (.inl ⟨why, rfl, rfl⟩)
    · rcases hrec : recordCases F ctx.guest ctx.binary 0 cases with argv | recorded
      · exact .inr (.inr ⟨argv, by simp only [hrec]⟩)
      · refine .inl ⟨⟨source, cases, recorded, hiddenSuite F ctx.guest ctx.binary ctx.draws
          (2 * cases.length) recorded⟩, ?_, rfl⟩
        simp only [hrec]
  · have hcases : py "cases.json" ∉ w.submitted.keys := by
      apply ht.not_mem (by decide)
      rw [decl_of_function hw]
      decide
    -- and a function has its parameters
    have hkey : py "params.json" ∈ w.submitted.keys := by
      have hk : texts.keys = [py "model.c", w.decl] :=
        ht.keys.resolve_right fun hk => by rw [hw] at hk; exact absurd hk.2 Bool.noConfusion
      rw [ht.submitted, Dict.keys, List.map_map]
      show py "params.json" ∈ texts.keys
      rw [hk, decl_of_function hw]
      simp
    obtain ⟨raw, hraw⟩ := Dict.exists_lookup hkey
    refine ⟨raw, source, hraw, hsource, ?_⟩
    rw [readFunction]
    simp only [candidateFiles_submit h hc, hsource, hraw, hcases, if_false]
    rcases hp : paramsOf F raw with why | params
    · exact .inr ⟨why, rfl, rfl⟩
    · exact .inl ⟨params, rfl, by simp only [hdecode]⟩

/-! ### What the guard says of two submissions -/

/-- What a submission declares. -/
def declared (F : Type) [Runtime F] (w : WorkDir) : Option (Json F) :=
  (w.submitted.lookup w.decl).bind loads

/-- The fingerprint of a submission: its source, and behind a NUL its declaration. -/
theorem normalize_submit (h : submit F w = .ok result) (hc : CandidateOf result candidate) :
    normalize F candidate = encode (sourceText w.submitted) ++
      (declared F w).elim [] fun v => 0 :: encode (dumpsSorted compact v) := by
  obtain ⟨texts, ht, -⟩ := submit_ok h
  have hpart : ∀ raw, w.submitted.lookup w.decl = some raw →
      ∃ v, loads (F := F) raw = some v := fun raw hraw => by
    obtain ⟨xs, hxs, -⟩ := ht.declared hraw
    exact ⟨_, hxs⟩
  -- one of the two files of the fingerprint is never submitted, and the other is a value
  have hother : ∀ n, n ≠ py "model.c" → n ≠ w.decl → w.submitted.lookup n = none :=
    fun n hm hd => Dict.lookup_of_not_mem (ht.not_mem hm hd)
  rw [normalize_eq (candidateFiles_submit h hc), text_declaration, declared]
  congr 1
  have hnames : (w.submitted.lookup (py "params.json")).toList ++
      (w.submitted.lookup (py "cases.json")).toList = (w.submitted.lookup w.decl).toList := by
    rcases hw : w.function with - | -
    · have hd := decl_of_program hw
      rw [hother (py "params.json") (by decide) (by rw [hd]; decide), hd]
      rfl
    · have hd := decl_of_function hw
      rw [hother (py "cases.json") (by decide) (by rw [hd]; decide), hd]
      exact List.append_nil _
  rw [hnames]
  rcases hraw : w.submitted.lookup w.decl with - | raw
  · rfl
  · obtain ⟨v, hv⟩ := hpart raw hraw
    simp [canonicalPart, hv]

/-- **A repeat is a repeat.**  Of two submissions with one source, but for comments and white
space, the guard takes the second for the first exactly when both declare the same JSON value. -/
theorem submitted_repeat_iff {w' : WorkDir} {result' : Bytes} {candidate' : Dict Bytes}
    (h : submit F w = .ok result) (hc : CandidateOf result candidate)
    (h' : submit F w' = .ok result') (hc' : CandidateOf result' candidate')
    (hsource : sourceText w.submitted = sourceText w'.submitted) :
    normalize F candidate = normalize F candidate' ↔
      Option.Rel Json.Same (declared F w) (declared F w') := by
  -- the declaration was written with its surrogate pairs joined, so the dump keeps it apart
  have hvalue : ∀ {w : WorkDir} {result : Bytes}, submit F w = .ok result →
      ∀ v ∈ declared F w, v.joined = v ∧ v.Fits (Runtime.maxDepth F) := by
    intro w result h v hv
    obtain ⟨texts, ht, -⟩ := submit_ok h
    obtain ⟨raw, hraw, hload⟩ := Option.bind_eq_some_iff.mp hv
    obtain ⟨xs, hxs, hj⟩ := ht.declared hraw
    obtain rfl : Json.arr xs = v := Option.some.inj (hxs.symm.trans hload)
    exact ⟨hj, loads_fits hload⟩
  rw [normalize_submit h hc, normalize_submit h' hc', hsource, List.append_cancel_left_eq]
  have hd := hvalue h
  have hd' := hvalue h'
  rcases hw : declared F w with - | v
  · rcases hw' : declared F w' with - | v'
    · exact iff_of_true rfl .none
    · refine iff_of_false (fun he => ?_) (fun hr => ?_)
      · exact absurd he (List.cons_ne_nil _ _).symm
      · cases hr
  · rcases hw' : declared F w' with - | v'
    · refine iff_of_false (fun he => ?_) (fun hr => ?_)
      · exact absurd he (List.cons_ne_nil _ _)
      · cases hr
    · obtain ⟨hj, hf⟩ := hd v hw
      obtain ⟨hj', hf'⟩ := hd' v' hw'
      show 0 :: _ = 0 :: _ ↔ _
      rw [List.cons.injEq, and_iff_right rfl, encode_dumpsSorted_inj compact_blank hf hf',
        alike_iff_same hj hj']
      refine ⟨.some, fun hr => ?_⟩
      cases hr
      assumption

end Packed

/-! ### A submission -/

theorem readWork_content {w : WorkDir} {name s : PyStr} (hs : NoSurrogate s)
    (h : w.workspace name = .content (encode s)) :
    readWork w name = .ok [(name, universalNewlines s)] := by
  simp only [readWork, h, decodeUtf8_encode .strict hs]

/-- Two UTF-8 files, the second of them a JSON list, are packed if they fit. -/
theorem submit_content {F : Type} [Runtime F] {w : WorkDir} {s t : PyStr} {xs : List (Json F)}
    (hs : NoSurrogate s) (ht : NoSurrogate t)
    (hmodel : w.workspace (py "model.c") = .content (encode s))
    (hdecl : w.workspace w.decl = .content (encode t))
    (hlist : loadsText (universalNewlines t) = some (.arr xs))
    (hfit : (encode (bundleText F [(py "model.c", universalNewlines s),
      (w.decl, universalNewlines t)])).length ≤ 1024 * 1024) :
    submit F w = .ok (encode (bundleText F [(py "model.c", universalNewlines s),
      (w.decl, universalNewlines t)])) := by
  have hcheck : checkDecl F w.decl [(py "model.c", universalNewlines s),
      (w.decl, universalNewlines t)] = .ok () := by
    have hne : (w.decl == py "model.c") = false := beq_eq_false_iff_ne.mpr (decl_ne_model w)
    simp [checkDecl, List.lookup_cons, hne, hlist]
  simp only [submit, readWork_content hs hmodel, readWork_content ht hdecl, bind, Except.bind,
    List.singleton_append, hcheck]
  rw [if_neg (by omega)]

/-- An empty model with an empty list of cases or parameters, written as `text`. -/
def emptyDir (function : Bool) (text : PyStr) : WorkDir where
  function := function
  workspace name := if name = py "model.c" then .content [] else .content (encode text)

/-- The list is written with a space in it, and with none. -/
def spacedDir : WorkDir := emptyDir false (py "[ ]")
def plainDir : WorkDir := emptyDir false (py "[]")

/-- A function without parameters. -/
def functionDir : WorkDir := emptyDir true (py "[ ]")

theorem noSurrogate_nil : NoSurrogate [] := fun _ h => absurd h List.not_mem_nil

theorem submit_spaced : submit ZeroFloat spacedDir = .ok (encode (bundleText ZeroFloat
    [(py "model.c", []), (py "cases.json", py "[ ]")])) :=
  submit_content (s := []) (t := py "[ ]") noSurrogate_nil
    (Printable.noSurrogate (printable_py (by decide))) rfl rfl rfl (by decide)

theorem submit_plain : submit ZeroFloat plainDir = .ok (encode (bundleText ZeroFloat
    [(py "model.c", []), (py "cases.json", py "[]")])) :=
  submit_content (s := []) (t := py "[]") noSurrogate_nil
    (Printable.noSurrogate (printable_py (by decide))) rfl rfl rfl (by decide)

theorem submit_function : submit ZeroFloat functionDir = .ok (encode (bundleText ZeroFloat
    [(py "model.c", []), (py "params.json", py "[ ]")])) :=
  submit_content (s := []) (t := py "[ ]") noSurrogate_nil
    (Printable.noSurrogate (printable_py (by decide))) rfl rfl rfl (by decide)

/-- The candidate that holds a submission. -/
def alone (result : Bytes) : Dict Bytes := [(py "result.json", result)]

theorem candidateOf_alone (result : Bytes) : CandidateOf result (alone result) :=
  ⟨rfl, rfl⟩

theorem round_trip_spaced : ∃ result, submit ZeroFloat spacedDir = .ok result ∧
    candidateFiles ZeroFloat (alone result) = .ok spacedDir.submitted ∧
      (∃ source, decodeUtf8 .strict ((spacedDir.submitted.lookup (py "model.c")).getD []) =
        some source) ∧
      ∀ raw, spacedDir.submitted.lookup spacedDir.decl = some raw →
        ∃ xs, loads (F := ZeroFloat) raw = some (.arr xs) :=
  ⟨_, submit_spaced, submit_round_trip submit_spaced (candidateOf_alone _)⟩

theorem judged_spaced :
    (∃ result, submit ZeroFloat spacedDir = .ok result ∧
      ∀ ctx : ReplayContext, CandidateOf result ctx.candidate →
        ∃ p, prepare ZeroFloat ctx = .ok p ∧
          spacedDir.submitted.lookup (py "model.c") = some (encode p.source)) ∧
    ∃ result, submit ZeroFloat functionDir = .ok result ∧
      ∀ candidate, CandidateOf result candidate → ∀ decodeError : Bytes → PyStr,
        ∃ source, functionDir.submitted.lookup (py "model.c") = some (encode source) ∧
          readFunction (F := ZeroFloat) candidate decodeError =
            .ok (functionDir.submitted, [], source) := by
  refine ⟨⟨_, submit_spaced, fun ctx hc => ?_⟩, _, submit_function, fun candidate hc decodeError => ?_⟩
  · rcases (submitted_judged submit_spaced).1 rfl ctx hc with hok | ⟨why, hwhy, -⟩ | ⟨argv, hflaky⟩
    · exact hok
    · have hread : parseCases ZeroFloat ((spacedDir.submitted.lookup (py "cases.json")).getD
          (encode (py "[]"))) = .ok [] := rfl
      rw [hread] at hwhy
      cases hwhy
    · -- there is no case that could be flaky
      rw [prepare] at hflaky
      simp only [candidateFiles_submit submit_spaced hc] at hflaky
      cases hflaky
  · obtain ⟨raw, source, hraw, hsource, ⟨params, hparams, hread⟩ | ⟨why, hwhy, -⟩⟩ :=
      (submitted_judged submit_function).2 rfl candidate hc decodeError
    · obtain rfl : encode (py "[ ]") = raw := Option.some.inj hraw
      obtain rfl : [] = params := Except.ok.inj hparams
      exact ⟨source, hsource, hread⟩
    · obtain rfl : encode (py "[ ]") = raw := Option.some.inj hraw
      cases hwhy

theorem repeat_spaced : ∃ result result', submit ZeroFloat spacedDir = .ok result ∧
    submit ZeroFloat plainDir = .ok result' ∧ result ≠ result' ∧
    normalize ZeroFloat (alone result) = normalize ZeroFloat (alone result') := by
  refine ⟨_, _, submit_spaced, submit_plain, ?_, (submitted_repeat_iff submit_spaced
    (candidateOf_alone _) submit_plain (candidateOf_alone _) rfl).mpr ?_⟩
  · decide
  · exact .some rfl

end ReSchema
