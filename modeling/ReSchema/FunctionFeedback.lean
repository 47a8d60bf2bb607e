/-
ReSchema/FunctionFeedback.lean

What the job printed never turns a rejection into a fault of the checker.

It makes nothing raise (`checkFunction_isSome`): its output is judged once its
shape was checked.  And it makes no feedback too long (`feedback_fits`).  It
stands there as texts only, and `_reject` has two forms.  Short feedback is
shown as it is: its length was taken without indentation, but its line breaks
are few (`FnVerdict.layout`), since there is no list in it and no dictionary
beyond one input.  In long feedback every value is cut to a text of 4096 code
points, of twelve octets each at most.
-/
import ReSchema.FunctionSound
import ReSchema.RoundCases
import ReSchema.Py.Sizes

namespace ReSchema

open Py

variable {F : Type} [Runtime F]

/-! ### No exception -/

omit [Runtime F] in
theorem readMem_isSome {ps : List Param} (h : (ps.map Param.name).Nodup) {k : PyStr} {v : Json F}
    (hshape : memShape ((kindsOf ps).lookup k) v = true) : (readMem ps k v).isSome = true := by
  rcases hkind : (kindsOf ps).lookup k with - | kind
  · rw [hkind] at hshape
    cases hshape
  obtain ⟨p, hp, hpk⟩ := List.mem_map.mp (Dict.mem_of_lookup_eq_some hkind)
  obtain ⟨rfl, rfl⟩ := Prod.mk.inj hpk
  rw [hkind] at hshape
  rw [readMem, find?_name h (List.mem_filter.mp hp).1]
  cases hk : p.kind with
  | cstring =>
      simp only [hk, Option.isSome_map]
      simpa [hk, memShape] using hshape
  | _ => simp [hk]

/-- A value can be compared. -/
theorem readAnswer_isSome {ps : List Param} (h : (ps.map Param.name).Nodup) {got : Json F}
    (hvalue : isValue (kindsOf ps) got = true) :
    contains (py "crash") got = some false ∧ (readAnswer ps got).isSome = true := by
  obtain ⟨d, ret, m, rfl, hkeys, hd, hm, -, hshape⟩ := isValue_spec hvalue
  have hcrash : py "crash" ∉ Dict.keys d := by
    rw [hkeys]
    simp
  obtain ⟨items, hitems⟩ : ∃ items, m.mapM (fun e =>
      (readMem ps e.1 e.2).map fun item => (e.1, item)) = some items := by
    refine exists_mapM_some.mpr fun e he => ?_
    obtain ⟨item, hitem⟩ := Option.isSome_iff_exists.mp (readMem_isSome h (hshape e he))
    exact ⟨(e.1, item), by rw [hitem]; rfl⟩
  refine ⟨by simp [contains, hcrash], ?_⟩
  simp [readAnswer, Json.get?, hd, hm, Json.obj?, hitems]

/-- What the shape check lets through: a value, or a crash. -/
def Comparable (ps : List Param) (got : Json F) : Prop :=
  isValue (kindsOf ps) got = true ∨ ∃ c, got = .obj [(py "crash", c)]

theorem Comparable.contains_isSome {ps : List Param} {got : Json F} (h : Comparable ps got) :
    (contains (py "crash") got).isSome = true := by
  rcases h with hvalue | ⟨c, rfl⟩
  · obtain ⟨d, ret, m, rfl, -⟩ := isValue_spec hvalue
    rfl
  · rfl

theorem compareCase_isSome {ps : List Param} (h : (ps.map Param.name).Nodup) {got : Json F}
    (hgot : Comparable ps got) (seed : Json F) (skipped compared : ℕ) (s : Survivor F) :
    (compareCase ps seed skipped compared s got).isSome = true := by
  rcases hgot with hvalue | ⟨c, rfl⟩
  · obtain ⟨hcrash, hread⟩ := readAnswer_isSome h hvalue
    obtain ⟨⟨ret, mem⟩, hread⟩ := Option.isSome_iff_exists.mp hread
    rw [compareCase, hcrash]
    simp only [hread, Option.bind_eq_bind, Option.bind_some, Bool.false_eq_true, if_false]
    split_ifs <;> rfl
  · have hcrash : contains (py "crash") (Json.obj [(py "crash", c)]) = some true := by
      simp [contains, Dict.keys]
    have hget : (Json.obj [(py "crash", c)]).get? (py "crash") = some c := by simp [Json.get?]
    simp [compareCase, hcrash, hget]

theorem compareCases_isSome {ps : List Param} (h : (ps.map Param.name).Nodup) (seed : Json F)
    (skipped : ℕ) {l : List (Survivor F × Json F)} (hl : ∀ e ∈ l, Comparable ps e.2)
    (compared : ℕ) : (compareCases ps seed skipped compared l).isSome = true := by
  induction l generalizing compared with
  | nil => rfl
  | cons e l ih =>
      obtain ⟨s, got⟩ := e
      obtain ⟨hgot, hl⟩ := List.forall_mem_cons.mp hl
      obtain ⟨o, ho⟩ := Option.isSome_iff_exists.mp
        (compareCase_isSome h hgot seed skipped (compared + 1) s)
      rw [compareCases, ho]
      cases o with
      | none => exact ih hl (compared + 1)
      | some v => rfl

/-- **Whatever the job printed is judged.** -/
theorem judgeClaim_isSome {ps : List Param} (h : (ps.map Param.name).Nodup) (seed : Json F)
    (skipped : ℕ) (kept : List (Survivor F)) (out : Json F) :
    (judgeClaim ps seed skipped kept (claim out (ps.map Param.raw) kept.length)).isSome = true := by
  rcases claim_cases out (ps.map Param.raw) kept.length with hreport |
    ⟨d, res, last, rfl, -, hsplit, -, hbody, last', hlast, hclaim⟩
  · rw [judgeClaim, if_pos hreport.stage]
    rfl
  rw [memKinds_raw h] at hbody hlast
  -- what the host accepts as the last answer is a value or a crash
  have hlast' : Comparable ps last' := by
    rcases lastAnswer_spec hlast with ⟨c, rfl⟩ | ⟨rfl, -, hvalue⟩
    · exact .inr ⟨c, rfl⟩
    · exact .inl hvalue
  have hall : ∀ got ∈ res.dropLast ++ [last'], Comparable ps got := by
    rw [List.forall_mem_append]
    exact ⟨fun got hgot => .inl (hbody got hgot), by simpa using hlast'⟩
  have hstage : py "stage" ∉ Dict.keys [(py "results", Json.arr (res.dropLast ++ [last']))] := by
    simp [Dict.keys]
  obtain ⟨b, hb⟩ : ∃ b, wellFormedResults kept.length (res.dropLast ++ [last']) = some b := by
    rw [wellFormedResults, List.getLast?_concat, Option.bind_some]
    split_ifs
    · exact ⟨_, rfl⟩
    · exact Option.isSome_iff_exists.mp hlast'.contains_isSome
    · exact ⟨_, rfl⟩
  rw [hclaim, judgeClaim, if_neg hstage]
  simp only [List.lookup_cons, beq_self_eq_true, Option.bind_eq_bind, Option.bind_some,
    Json.arr?, hb]
  cases b with
  | true => exact compareCases_isSome h seed skipped (fun e he => hall e.2 (List.of_mem_zip he).2) 0
  | false => rfl

/-- **No output of the job makes the checker raise**: only the original can. -/
theorem validateFunction_isSome {x : FunctionRound F} (ha : Accepted x.params)
    (runJob : WorkerJob → JobResult) : (validateFunction x (jobModel runJob)).isSome = true ↔
      registerCount < x.params.length ∨ scalarVoid x.params = true ∨
        (batchCallOriginal F x.original x.params (x.cases.map RoundCase.case)).isSome = true := by
  rw [validateFunction]
  by_cases harity : registerCount < x.params.length
  · rw [if_pos harity]
    exact iff_of_true rfl (.inl harity)
  rw [if_neg harity, or_iff_right harity]
  by_cases hvoid : scalarVoid x.params = true
  · rw [if_pos hvoid]
    exact iff_of_true rfl (.inl hvoid)
  rw [if_neg hvoid, or_iff_right hvoid]
  rcases batchCallOriginal F x.original x.params (x.cases.map RoundCase.case) with - | wants
  · exact iff_of_false Bool.false_ne_true Bool.false_ne_true
  refine iff_of_true ?_ rfl
  simp only [Option.bind_eq_bind, Option.bind_some]
  rcases hfloors : floors x.nFuzz x.seed (x.cases.zip wants) with w | kept
  · rfl
  by_cases hread : (runJob (sentJob x kept)).Clean ∧
      ∃ out, loads (F := F) (runJob (sentJob x kept)).stdout = some out
  · obtain ⟨hclean, out, hout⟩ := hread
    simp only [jobModel_functionJob runJob x kept rfl hclean hout, Option.bind_some]
    exact judgeClaim_isSome ha.nodup x.seed _ kept out
  · obtain ⟨t, hmodel⟩ := jobModel_stage runJob x kept rfl hread
    simp only [hmodel, Option.bind_some]
    rw [judgeClaim, if_pos (stageReport_workerStage t).stage]
    rfl

/-! ### Line breaks -/

/-- What indentation adds to the divergence of a verdict, one level down in the feedback. -/
def FnVerdict.layout (v : FnVerdict F) : ℕ := (v.divergence.getD .null).layout 1

omit [Runtime F] in
theorem layout_stageReject (stage detail : PyStr) {kw : Dict (Json F)} (skipped : ℕ)
    (hkw : kw = [] ∨ ∃ seed : Json F, seed.Scalar ∧ kw = [(py "seed", seed)]) :
    (stageReject stage detail kw skipped).layout ≤ 100 := by
  rcases hkw with rfl | ⟨seed, hseed, rfl⟩
  · simp [FnVerdict.layout, stageReject, Json.layout, layoutDict]
  · simp [FnVerdict.layout, stageReject, Json.layout, layoutDict, hseed.layout]

omit [Runtime F] in
theorem Tame.length_le {ps : List Param} {case : Case} (h : Tame ps case) :
    case.length ≤ ps.length := by
  have hsub : Dict.keys case ⊆ ps.map Param.name := fun k hk => (h.keys k).mp hk
  simpa [Dict.keys] using (h.nodup.subperm hsub).length_le

/-- An input takes a line for each parameter. -/
theorem layout_preview (case : Case) (lvl : ℕ) :
    (preview F case).layout lvl ≤ 2 * lvl + 1 + (2 * lvl + 3) * case.length := by
  have hscalar : ∀ e ∈ case.map fun e => (e.1, e.2.preview F), e.2.layout (lvl + 1) ≤ 0 := by
    intro e he
    obtain ⟨⟨k, i | b | xs⟩, -, rfl⟩ := List.mem_map.mp he <;> exact le_refl 0
  have := layoutDict_le hscalar
  rw [List.length_map] at this
  rw [preview, Json.layout]
  exact Nat.add_le_add_left this _

theorem layout_fieldReject {s : Survivor F} (hs : s.case.length ≤ registerCount)
    (field expected actual : PyStr) {seed : Json F} (hseed : seed.Scalar) (compared skipped : ℕ) :
    (fieldReject s field expected actual seed compared skipped).layout ≤ 100 := by
  have hinput := layout_preview (F := F) s.case (1 + 1)
  have hsix : registerCount = 6 := rfl
  simp only [FnVerdict.layout, fieldReject, Option.getD_some, Json.layout, layoutDict,
    hseed.layout]
  omega

omit [Runtime F] in
theorem StageReport.layout_le {r : Dict (Json F)} (h : StageReport r) (lvl : ℕ) :
    (Json.obj r).layout lvl ≤ 2 * lvl + 1 + (2 * lvl + 3) * 3 := by
  have htexts : ∀ e ∈ r, e.2.layout (lvl + 1) ≤ 0 := by
    intro e he
    obtain ⟨t, ht⟩ := h.texts e he
    rw [ht]
    exact le_refl 0
  have := (layoutDict_le htexts).trans (Nat.mul_le_mul_left _ h.length_le)
  rw [Json.layout]
  exact Nat.add_le_add_left this _

/-! ### The verdicts -/

/-- The answer of the job goes through as the report of a stage, or is compared. -/
theorem layout_judgeClaim {ps : List Param} {seed : Json F} (hseed : seed.Scalar) {skipped : ℕ}
    {kept : List (Survivor F)} (hkept : ∀ s ∈ kept, s.case.length ≤ registerCount)
    {r : Dict (Json F)} (hr : py "stage" ∈ Dict.keys r → StageReport r) {v : FnVerdict F}
    (h : judgeClaim ps seed skipped kept r = some v) (hok : v.ok = false) : v.layout ≤ 100 := by
  rw [judgeClaim] at h
  by_cases hstage : py "stage" ∈ Dict.keys r
  · rw [if_pos hstage] at h
    cases h
    exact ((hr hstage).layout_le 1).trans (by decide)
  rw [if_neg hstage] at h
  rcases hres : (r.lookup (py "results")).bind Json.arr? with - | res
  · simp only [hres] at h
    cases h
    exact layout_stageReject _ _ _ (.inl rfl)
  simp only [hres] at h
  obtain ⟨b, -, h⟩ := Option.bind_eq_some_iff.mp h
  cases b with
  | false =>
      cases h
      exact layout_stageReject _ _ _ (.inl rfl)
  | true =>
      obtain ⟨e, he, field, expected, actual, j, rfl⟩ := compareCases_reject h hok
      exact layout_fieldReject (hkept _ (List.of_mem_zip he).1) field expected actual hseed j skipped

/-- A stage in the answer of the job comes with texts only. -/
theorem stageReport_of_jobModel {runJob : WorkerJob → JobResult} {x : FunctionRound F}
    {kept : List (Survivor F)} {r : Dict (Json F)}
    (h : jobModel runJob (functionJob x kept) = some r) (hstage : py "stage" ∈ Dict.keys r) :
    StageReport r := by
  by_cases hread : (runJob (sentJob x kept)).Clean ∧
      ∃ out, loads (F := F) (runJob (sentJob x kept)).stdout = some out
  · obtain ⟨hclean, out, hout⟩ := hread
    have hmodel := jobModel_functionJob runJob x kept rfl hclean hout
    obtain rfl := Option.some.inj (hmodel.symm.trans h)
    rcases claim_cases out (x.params.map Param.raw) kept.length with hreport |
      ⟨d, res, last, -, -, -, -, -, last', -, hclaim⟩
    · exact hreport
    · rw [hclaim] at hstage
      simp [Dict.keys] at hstage
  · obtain ⟨t, hmodel⟩ := jobModel_stage runJob x kept rfl hread
    obtain rfl := Option.some.inj (hmodel.symm.trans h)
    exact stageReport_workerStage t

/-- **The line breaks of a rejection are few.** -/
theorem layout_validateFunction {x : FunctionRound F} (ha : Accepted x.params)
    (hseed : x.seed.Scalar) {runJob : WorkerJob → JobResult} {v : FnVerdict F}
    (h : validateFunction x (jobModel runJob) = some v) (hok : v.ok = false) :
    v.layout ≤ 100 := by
  rw [validateFunction] at h
  by_cases harity : registerCount < x.params.length
  · rw [if_pos harity] at h
    cases h
    exact layout_stageReject _ _ _ (.inl rfl)
  rw [if_neg harity] at h
  by_cases hvoid : scalarVoid x.params = true
  · rw [if_pos hvoid] at h
    cases h
    exact layout_stageReject _ _ _ (.inl rfl)
  rw [if_neg hvoid] at h
  obtain ⟨wants, -, h⟩ := Option.bind_eq_some_iff.mp h
  rcases hfloors : floors x.nFuzz x.seed (x.cases.zip wants) with w | kept
  · simp only [hfloors] at h
    cases h
    obtain ⟨stage, detail, rfl⟩ := floors_reject hfloors
    exact layout_stageReject _ _ _ (.inr ⟨x.seed, hseed, rfl⟩)
  · obtain ⟨rfl, -⟩ := floors_ok.mp hfloors
    simp only [hfloors] at h
    obtain ⟨r, hr, hjudge⟩ := Option.bind_eq_some_iff.mp h
    -- an input has a value for each parameter, of which the registers hold all
    have hkept : ∀ s ∈ survivors (x.cases.zip wants), s.case.length ≤ registerCount := by
      intro s hs
      have hcase : s.toRoundCase ∈ x.cases := (List.of_mem_zip (mem_survivors.mp hs)).1
      exact (x.tame ha hcase).length_le.trans (not_lt.mp harity)
    exact layout_judgeClaim hseed hkept (stageReport_of_jobModel hr) hjudge hok

/-! ### The feedback -/

/-- The feedback fits its limit, with its keys in either order. -/
def CheckVerdict.FeedbackFits (v : CheckVerdict F) : Prop :=
  (encode (dumps indent2 v.feedback)).length ≤ feedbackLimit ∧
    (encode (dumpsSorted indent2 v.feedback)).length ≤ feedbackLimit

theorem feedbackFits_iff [LawfulRuntime F] {v : CheckVerdict F} :
    v.FeedbackFits ↔ (dumps indent2 v.feedback).length ≤ feedbackLimit := by
  have hplain : IsAscii (dumps indent2 v.feedback) := isAscii_render indent2_blank _ 0
  have hsorted : IsAscii (dumpsSorted indent2 v.feedback) := isAscii_render indent2_blank _ 0
  rw [CheckVerdict.FeedbackFits, encode_ascii hplain, encode_ascii hsorted, List.length_map,
    List.length_map, dumpsSorted, length_render_sortKeys]
  exact and_self_iff

/-- **Both forms of a rejection fit**, when the line breaks of the one are few and the texts of
the other are. -/
theorem functionReject_fits [LawfulRuntime F] {feedback : Dict (Json F)}
    (hkeys : (Dict.keys ((py "accepted", .bool false) :: feedback)).Nodup)
    (hlayout : layoutDict 1 feedback ≤ 1024)
    (hcut : (feedback.map fun e =>
      entryRoom indent2 1 (e.1, (.str ((pyStr e.2).take textCap) : Json F))).sum ≤ 60 * 1024) :
    (functionReject feedback).FeedbackFits := by
  have hlimit : feedbackLimit = 65536 := rfl
  have hline : (indent2.newline 0).length = 1 := rfl
  have haccepted : entryRoom indent2 1 (py "accepted", (.bool false : Json F)) ≤ 30 := by
    simp only [entryRoom, render]
    decide
  have hcutKeys : (Dict.keys ([(py "accepted", Json.bool (F := F) false)] ++ feedback.map fun e =>
      (e.1, (.str ((pyStr e.2).take textCap) : Json F)))).Nodup := by
    simpa [Dict.keys, Function.comp_def] using hkeys
  rw [feedbackFits_iff, functionReject]
  -- the cut form is measured by its texts, the whole one by its compact form
  split_ifs with hlong
  · rw [Dict.update_append hcutKeys, dumps]
    have hroom := length_render_obj_le indent2 0
      ([(py "accepted", Json.bool (F := F) false)] ++ feedback.map fun e =>
        (e.1, (.str ((pyStr e.2).take textCap) : Json F)))
    rw [List.singleton_append, List.map_cons, List.sum_cons, List.map_map] at hroom
    simp only [Function.comp_def, zero_add] at hroom
    rw [List.singleton_append]
    dsimp only
    omega
  · rw [Dict.update_append hkeys] at hlong ⊢
    have hindent := length_indent_le
      (Json.obj ((py "accepted", Json.bool (F := F) false) :: feedback)) 0
    simp only [Json.layout, layoutDict, zero_add] at hindent
    rw [dumps] at hlong ⊢
    rw [List.singleton_append] at hlong ⊢
    dsimp only
    omega

theorem specReject_fits [LawfulRuntime F] (detail : PyStr) :
    (specReject detail : CheckVerdict F).FeedbackFits := by
  have hreason : ((pyStr (.str (py "spec") : Json F)).take textCap).length ≤ 4 := by
    rw [pyStr]
    decide
  have hdetail : ((pyStr (.str detail : Json F)).take textCap).length ≤ 4096 :=
    List.length_take_le _ _
  have h1 := entryRoom_str_le (F := F) (k := py "reason") (m := 6) (le_refl 6) hreason
  have h2 := entryRoom_str_le (F := F) (k := py "detail") (m := 6) (le_refl 6) hdetail
  refine functionReject_fits (by simp [Dict.keys]) (by simp [layoutDict, Json.layout]) ?_
  simp only [List.map_cons, List.map_nil, List.sum_cons, List.sum_nil]
  omega

theorem divergence_fits [LawfulRuntime F] {v : FnVerdict F} (h : v.layout ≤ 100) :
    (functionReject [(py "divergence", v.divergence.getD .null)]).FeedbackFits := by
  have hcut : ((pyStr (v.divergence.getD .null)).take textCap).length ≤ 4096 :=
    List.length_take_le _ _
  have h1 := entryRoom_str_le (F := F) (k := py "divergence") (m := 10) (le_refl 10) hcut
  refine functionReject_fits (by simp [Dict.keys]) ?_ ?_
  · rw [FnVerdict.layout] at h
    simp only [layoutDict]
    omega
  · simp only [List.map_cons, List.map_nil, List.sum_cons, List.sum_nil]
    omega

/-- What becomes of the candidate's files: a text says what is wrong with them, or the
declaration is accepted. -/
theorem readFunction_cases (candidate : Dict Bytes) (decodeError : Bytes → PyStr) :
    (∃ why, readFunction (F := F) candidate decodeError = .error (specReject why)) ∨
      ∃ files params source spec, readFunction (F := F) candidate decodeError =
        .ok (files, params, source) ∧ paramsOf F spec = .ok params := by
  rw [readFunction]
  rcases candidateFiles F candidate with why | files
  · exact .inl ⟨why, rfl⟩
  rcases hmodel : files.lookup (py "model.c") with - | model <;>
    rcases hspec : files.lookup (py "params.json") with - | spec <;> simp only [hmodel, hspec]
  · exact .inl ⟨_, rfl⟩
  · exact .inl ⟨_, rfl⟩
  · exact .inl ⟨_, rfl⟩
  by_cases hcases : py "cases.json" ∈ files.keys
  · rw [if_pos hcases]
    exact .inl ⟨_, rfl⟩
  rw [if_neg hcases]
  rcases hparams : paramsOf F spec with why | params
  · exact .inl ⟨_, rfl⟩
  rcases decodeUtf8 .strict model with - | source
  · exact .inl ⟨_, rfl⟩
  · exact .inr ⟨files, params, source, spec, rfl, hparams⟩

/-- **Whether the checker raises is not up to the job.** -/
theorem checkFunction_isSome (ctx : FunctionContext F) (runJob : WorkerJob → JobResult) :
    (checkFunction { ctx with runJob := runJob }).isSome = true ↔
      (checkFunction ctx).isSome = true := by
  rw [checkFunction, checkFunction]
  rcases readFunction_cases (F := F) ctx.candidate ctx.decodeError with ⟨why, hread⟩ |
    ⟨files, params, source, spec, hread, hparams⟩
  · simp only [hread]
  · simp only [hread, Option.isSome_map]
    rw [validateFunction_isSome (paramsOf_accepted hparams),
      validateFunction_isSome (paramsOf_accepted hparams)]

/-- **The feedback on a rejected function fits**, whatever the candidate, the original and the
output of the job are.  The seed is the number that the host drew. -/
theorem feedback_fits [LawfulRuntime F] {ctx : FunctionContext F} (hseed : ctx.seed.Scalar)
    {v : CheckVerdict F} (h : checkFunction ctx = some v) (hrejected : v.status = .rejected) :
    v.FeedbackFits := by
  rw [checkFunction] at h
  rcases readFunction_cases (F := F) ctx.candidate ctx.decodeError with ⟨why, hread⟩ |
    ⟨files, params, source, spec, hread, hparams⟩
  · simp only [hread] at h
    cases h
    exact specReject_fits why
  simp only [hread] at h
  obtain ⟨u, hu, rfl⟩ := Option.map_eq_some_iff.mp h
  by_cases hok : u.ok = true
  · rw [if_pos hok] at hrejected
    cases hrejected
  · rw [if_neg hok]
    have hfalse : u.ok = false := by simpa using hok
    exact divergence_fits (layout_validateFunction (paramsOf_accepted hparams) hseed hu hfalse)

/-- A job that claims a failure of the host. -/
def forgedStage : Json ZeroFloat :=
  .obj [(py "stage", .str (py "infra")), (py "detail", .str (py "no runner"))]

theorem length_forgedStage : (encode (dumps plain forgedStage)).length ≤ 256 * 1024 := by
  decide +kernel

def forgedStageJob : JobResult where
  returncode := 0
  timedOut := false
  truncated := false
  stdout := encode (dumps plain forgedStage)
  stderr := []
  stdout_le := length_forgedStage
  stderr_lt := nil_stderr_lt
  returncode_lt := zero_returncode_lt

def forgedContext : FunctionContext ZeroFloat where
  candidate := [(py "model.c", encode zeroRound.source), (py "params.json",
    encode (dumps plain (.arr (zeroRound.params.map (Param.toJson (F := ZeroFloat))))))]
  func := zeroRound.func
  seed := zeroRound.seed
  stream := zeroRound.stream
  nFuzz := zeroRound.nFuzz
  immediates := zeroRound.immediates
  original := zeroRound.original
  runJob := fun _ => forgedStageJob
  decodeError := fun _ => []
  factsLimit := 16 * 1024

theorem loads_forgedStageJob : loads (F := ZeroFloat) forgedStageJob.stdout = some forgedStage := by
  have hdepth : Runtime.maxDepth ZeroFloat = 1000 := rfl
  refine loads_dumps plain_blank ?_ ?_
  · simp [forgedStage, hdepth, Json.Fits, FitsDict]
  · have hstage : joinPairs (py "stage") = py "stage" := joinPairs_py (by decide)
    have hdetail : joinPairs (py "detail") = py "detail" := joinPairs_py (by decide)
    have hinfra : joinPairs (py "infra") = py "infra" := joinPairs_py (by decide)
    have hrunner : joinPairs (py "no runner") = py "no runner" := joinPairs_py (by decide)
    simp [forgedStage, Json.Clean, CleanDict, Dict.keys, hstage, hdetail, hinfra, hrunner]

theorem validate_forgedStage : validateFunction zeroRound (jobModel fun _ => forgedStageJob) =
    some ⟨false, some forgedStage, 0, 0, none⟩ := by
  have hmodel := jobModel_functionJob (fun _ => forgedStageJob) zeroRound zeroKept rfl
    ⟨rfl, rfl, rfl⟩ loads_forgedStageJob
  have hround : zeroRound.cases.zip zeroWants = zeroRound.round zeroWants := rfl
  rw [validateFunction, if_neg (by decide), if_neg (by decide), batch_zeroRound]
  simp only [Option.bind_eq_bind, Option.bind_some, hround, floors_zeroRound, hmodel]
  rfl

theorem checkFunction_forged : checkFunction forgedContext =
    some (functionReject [(py "divergence", forgedStage)]) := by
  have hspec : paramsOf ZeroFloat (encode (dumps plain (.arr (zeroRound.params.map
      (Param.toJson (F := ZeroFloat)))))) = .ok zeroRound.params := paramsOf_dumps accepted_zeroRound
  have hsource : decodeUtf8 .strict (encode zeroRound.source) = some zeroRound.source :=
    decodeUtf8_ascii _ (printable_py (by decide)).isAscii
  have hread : readFunction forgedContext.candidate forgedContext.decodeError =
      (.ok (forgedContext.candidate, zeroRound.params, zeroRound.source) :
        Except (CheckVerdict ZeroFloat) _) := by
    rw [readFunction]
    simp [forgedContext, candidateFiles, directFiles, candidateNames, List.lookup_cons, hspec,
      hsource, Dict.keys]
  rw [checkFunction]
  simp only [hread]
  exact congrArg (Option.map _) validate_forgedStage

theorem feedback_fits_forged :
    (functionReject [(py "divergence", forgedStage)]).FeedbackFits := by
  have hseed : forgedContext.seed.Scalar := trivial
  exact feedback_fits hseed checkFunction_forged rfl

end ReSchema
