/-
ReSchema/FunctionSound.lean

What an accepted function proves, whatever the job printed.

The candidate runs inside the job, so that the output of the job is its own
claim.  `claim_cases` says which outputs have results at all, and
`compareCase_eq_none` when one of these is taken for the original's answer;
together they leave no room for a short list, a crash in the middle or a value
of another shape.  `validate_sound` puts this and the floors together.
-/
import ReSchema.Survivors

namespace ReSchema

open Py

variable {F : Type} [Runtime F]

/-! ### The comparison -/

/-- **When an answer is that of the original.** -/
theorem compareCase_eq_none {ps : List Param} {seed : Json F} {skipped compared : ℕ}
    {s : Survivor F} {got : Json F} :
    compareCase ps seed skipped compared s got = some none ↔
      contains (py "crash") got = some false ∧ ∃ ret mem, readAnswer ps got = some (ret, mem) ∧
        memEq s.mem mem = true ∧ (returnsVoid ps = false → pyEq (.int s.ret) ret = true) := by
  rw [compareCase]
  rcases hc : contains (py "crash") got with - | b
  · simp
  cases b with
  | true => cases got.get? (py "crash") <;> simp
  | false =>
      rcases hr : readAnswer ps got with - | ⟨ret, mem⟩
      · simp
      · cases hm : memEq s.mem mem with
        | false => simp [hm]
        | true =>
            cases hv : returnsVoid ps <;> cases he : pyEq (.int s.ret) ret <;> simp [hm, he]

/-- A round that ends the loop reports its own case. -/
theorem compareCase_reject {ps : List Param} {seed : Json F} {skipped compared : ℕ}
    {s : Survivor F} {got : Json F} {v : FnVerdict F}
    (h : compareCase ps seed skipped compared s got = some (some v)) :
    ∃ field expected actual, v = fieldReject s field expected actual seed compared skipped := by
  rw [compareCase] at h
  rcases hc : contains (py "crash") got with - | b
  · simp [hc] at h
  cases b with
  | true =>
      rcases hg : got.get? (py "crash") with - | crash
      · simp [hc, hg] at h
      · simp only [hc, hg, Option.bind_eq_bind, Option.bind_some, if_true, Option.pure_def,
          Option.some.injEq] at h
        exact ⟨_, _, _, h.symm⟩
  | false =>
      rcases hr : readAnswer ps got with - | ⟨ret, mem⟩
      · simp [hc, hr] at h
      · simp only [hc, hr, Option.bind_eq_bind, Option.bind_some, Bool.false_eq_true, if_false,
          Option.pure_def] at h
        split_ifs at h
        · cases h
          exact ⟨_, _, _, rfl⟩
        · cases h
          exact ⟨_, _, _, rfl⟩
        · cases h

theorem compareCase_not_ok {ps : List Param} {seed : Json F} {skipped compared : ℕ}
    {s : Survivor F} {got : Json F} {v : FnVerdict F}
    (h : compareCase ps seed skipped compared s got = some (some v)) : v.ok = false := by
  obtain ⟨field, expected, actual, rfl⟩ := compareCase_reject h
  rfl

/-- The loop accepts exactly when every round does. -/
theorem compareCases_ok {ps : List Param} {seed : Json F} {skipped compared : ℕ}
    {l : List (Survivor F × Json F)} {v : FnVerdict F}
    (h : compareCases ps seed skipped compared l = some v) (hok : v.ok = true) :
    v = ⟨true, none, compared + l.length, skipped, some seed⟩ ∧
      ∀ e ∈ l, ∃ j, compareCase ps seed skipped j e.1 e.2 = some none := by
  induction l generalizing compared with
  | nil =>
      cases h
      exact ⟨rfl, by simp⟩
  | cons e l ih =>
      obtain ⟨s, got⟩ := e
      rw [compareCases] at h
      rcases hc : compareCase ps seed skipped (compared + 1) s got with - | - | w
      · rw [hc] at h
        cases h
      · rw [hc] at h
        obtain ⟨hv, hall⟩ := ih h
        refine ⟨?_, List.forall_mem_cons.mpr ⟨⟨_, hc⟩, hall⟩⟩
        rw [hv, List.length_cons, Nat.add_right_comm]
        rfl
      · rw [hc] at h
        cases h
        rw [compareCase_not_ok hc] at hok
        cases hok

/-- The loop rejects at one of its cases. -/
theorem compareCases_reject {ps : List Param} {seed : Json F} {skipped compared : ℕ}
    {l : List (Survivor F × Json F)} {v : FnVerdict F}
    (h : compareCases ps seed skipped compared l = some v) (hok : v.ok = false) :
    ∃ e ∈ l, ∃ field expected actual j,
      v = fieldReject e.1 field expected actual seed j skipped := by
  induction l generalizing compared with
  | nil =>
      cases h
      cases hok
  | cons e l ih =>
      obtain ⟨s, got⟩ := e
      rw [compareCases] at h
      rcases hc : compareCase ps seed skipped (compared + 1) s got with - | - | w
      · rw [hc] at h
        cases h
      · rw [hc] at h
        obtain ⟨e, he, hv⟩ := ih h
        exact ⟨e, List.mem_cons_of_mem _ he, hv⟩
      · rw [hc] at h
        cases h
        obtain ⟨field, expected, actual, rfl⟩ := compareCase_reject hc
        exact ⟨_, List.mem_cons_self, field, expected, actual, _, rfl⟩

/-- **When an answer of a job is accepted.** -/
theorem judgeClaim_ok {ps : List Param} {seed : Json F} {skipped : ℕ} {kept : List (Survivor F)}
    {r : Dict (Json F)} {v : FnVerdict F} (h : judgeClaim ps seed skipped kept r = some v)
    (hok : v.ok = true) : py "stage" ∉ Dict.keys r ∧
      ∃ res, (r.lookup (py "results")).bind Json.arr? = some res ∧
        wellFormedResults kept.length res = some true ∧
        compareCases ps seed skipped 0 (kept.zip res) = some v := by
  rw [judgeClaim] at h
  by_cases hstage : py "stage" ∈ Dict.keys r
  · rw [if_pos hstage] at h
    cases h
    cases hok
  rw [if_neg hstage] at h
  refine ⟨hstage, ?_⟩
  rcases hres : (r.lookup (py "results")).bind Json.arr? with - | res
  · simp only [hres] at h
    cases h
    cases hok
  · simp only [hres, Option.bind_eq_bind] at h
    rcases hw : wellFormedResults kept.length res with - | b
    · rw [hw] at h
      cases h
    cases b with
    | false =>
        rw [hw] at h
        cases h
        cases hok
    | true =>
        rw [hw] at h
        exact ⟨res, rfl, hw, h⟩

/-- An accepted list is not cut short: a crash at its end would have been compared. -/
theorem compared_all {ps : List Param} {seed : Json F} {skipped : ℕ} {kept : List (Survivor F)}
    {res : List (Json F)} (hw : wellFormedResults kept.length res = some true)
    (hall : ∀ e ∈ kept.zip res, ∃ j, compareCase ps seed skipped j e.1 e.2 = some none) :
    List.Forall₂ (fun s got => ∃ j, compareCase ps seed skipped j s got = some none) kept res := by
  rw [wellFormedResults] at hw
  split_ifs at hw with hlen hshort
  · exact List.forall₂_iff_zip.mpr ⟨hlen.symm, fun he => hall _ he⟩
  · obtain ⟨last, hlast, hcrash⟩ := Option.bind_eq_some_iff.mp hw
    obtain ⟨s, hs⟩ : ∃ s, (s, last) ∈ kept.zip res := by
      rw [List.getLast?_eq_getElem?] at hlast
      obtain ⟨hi, hget⟩ := List.getElem?_eq_some_iff.mp hlast
      refine ⟨kept.get ⟨res.length - 1, by omega⟩, List.mem_iff_getElem.mpr
        ⟨res.length - 1, by rw [List.length_zip]; omega, ?_⟩⟩
      rw [List.getElem_zip, hget]
      rfl
    obtain ⟨j, hj⟩ := hall _ hs
    have := (compareCase_eq_none.mp hj).1
    rw [hcrash] at this
    cases this
  · cases hw

/-! ### The claim of the job -/

theorem lastAnswer_spec {mem : Dict Kind} {complete : Bool} {last last' : Json F}
    (h : lastAnswer mem complete last = some last') :
    (∃ c, last' = .obj [(py "crash", c)]) ∨
      (last' = last ∧ complete = true ∧ isValue mem last = true) := by
  have hvalue : (if complete && isValue mem last then some last else none) = some last' →
      last' = last ∧ complete = true ∧ isValue mem last = true := by
    intro h
    split_ifs at h with hb
    cases h
    exact ⟨rfl, Bool.and_eq_true_iff.mp hb⟩
  rw [lastAnswer] at h
  split at h
  · split_ifs at h with hk hb
    · cases h
      exact .inl ⟨_, rfl⟩
    · exact .inr (hvalue (by rw [if_pos hb]; exact h))
  · exact .inr (hvalue h)

/-- The report of a stage: a few texts. -/
structure StageReport (r : Dict (Json F)) : Prop where
  stage : py "stage" ∈ Dict.keys r
  length_le : r.length ≤ 3
  texts : ∀ e ∈ r, ∃ t, e.2 = .str t

omit [Runtime F] in
theorem stageReport_workerStage (detail : PyStr) :
    StageReport (workerStage detail : Dict (Json F)) := by
  refine ⟨by simp [workerStage, Dict.keys], by simp [workerStage], fun e he => ?_⟩
  rcases List.mem_cons.mp he with rfl | he
  · exact ⟨_, rfl⟩
  · obtain rfl := List.mem_singleton.mp he
    exact ⟨_, rfl⟩

/-- The texts of a stage that the job named. -/
theorem stageReport_claim {d : Dict (Json F)} (hin : py "stage" ∈ Dict.keys d) :
    StageReport ([py "stage", py "detail", py "stderr"].filterMap fun k =>
      (d.lookup k).map fun v => (k, (.str ((pyStr v).take textCap) : Json F))) := by
  obtain ⟨v, hv⟩ : ∃ v, d.lookup (py "stage") = some v := by
    refine Option.ne_none_iff_exists'.mp fun hnone => ?_
    obtain ⟨e, he, hk⟩ := List.mem_map.mp hin
    have hne := List.lookup_eq_none_iff.mp hnone e he
    rw [hk] at hne
    simp at hne
  refine ⟨?_, List.length_filterMap_le _ _, fun e he => ?_⟩
  · rw [List.filterMap_cons, hv]
    exact List.mem_cons_self
  · obtain ⟨k, -, hk⟩ := List.mem_filterMap.mp he
    obtain ⟨w, -, rfl⟩ := Option.map_eq_some_iff.mp hk
    exact ⟨_, rfl⟩

/-- **What a claim can be**: the report of a stage, or results.  These are as many values as
cases, or fewer with a crash in the end. -/
theorem claim_cases (out : Json F) (params : List (RawParam F)) (n : ℕ) :
    StageReport (claim out params n) ∨
    ∃ d res last, out = .obj d ∧ d.lookup (py "results") = some (.arr res) ∧
      res = res.dropLast ++ [last] ∧ res.length ≤ n ∧
      (∀ got ∈ res.dropLast, isValue (memKinds params) got = true) ∧
      ∃ last', lastAnswer (memKinds params) (decide (res.length = n)) last = some last' ∧
        claim out params n = [(py "results", .arr (res.dropLast ++ [last']))] := by
  cases out with
  | obj d =>
      -- everything that is not a list of results, in the order of the checks, is a stage
      by_cases hin : py "stage" ∈ Dict.keys d
      · rw [claim, if_pos hin]
        exact .inl (stageReport_claim hin)
      rw [claim, if_neg hin]
      rcases hres : (d.lookup (py "results")).bind Json.arr? with - | res
      · exact .inl (stageReport_workerStage _)
      obtain ⟨v, hv, hv'⟩ := Option.bind_eq_some_iff.mp hres
      rw [Json.arr?_eq_some.mp hv'] at hv
      rcases hlast : res.getLast? with - | last
      · simp only [hlast]
        exact .inl (stageReport_workerStage _)
      simp only [hlast]
      by_cases hn : n < res.length
      · rw [if_pos hn]
        exact .inl (stageReport_workerStage _)
      rw [if_neg hn]
      rcases hl : lastAnswer (memKinds params) (decide (res.length = n)) last with - | last'
      · exact .inl (stageReport_workerStage _)
      by_cases hall : res.dropLast.all (isValue (memKinds params)) = true
      · simp only [if_pos hall]
        exact .inr ⟨d, res, last, rfl, hv, (List.dropLast_append_getLast? _ hlast).symm,
          not_lt.mp hn, List.all_eq_true.mp hall, last', hl, rfl⟩
      · simp only [if_neg hall]
        exact .inl (stageReport_workerStage _)
  | _ => exact .inl (stageReport_workerStage _)

/-- The job of a round. -/
def sentJob (x : FunctionRound F) (kept : List (Survivor F)) : WorkerJob :=
  ⟨encode (dumps plain (.obj (functionJob x kept))), 120 + kept.length * 7⟩

/-- The job ended well, so that its output is read. -/
def JobResult.Clean (r : JobResult) : Prop :=
  r.returncode = 0 ∧ r.timedOut = false ∧ r.truncated = false

omit [Runtime F] in
/-- What stands under the keys of a job. -/
theorem lookup_functionJob (x : FunctionRound F) (kept : List (Survivor F)) :
    (functionJob x kept).lookup (py "mode") = some (.str (py "validate")) ∧
      (functionJob x kept).lookup (py "c_source") = some (.str x.source) ∧
      (functionJob x kept).lookup (py "fname") = some (.str x.func) ∧
      (functionJob x kept).lookup (py "params") = some (.arr (x.params.map Param.toJson)) ∧
      (functionJob x kept).lookup (py "cases") =
        some (.arr (kept.map fun s => .obj (wire s.case))) := by
  simp [functionJob, List.lookup_cons]

/-- The parameters of the job are those of the round, before their checks. -/
theorem readParams_functionJob (ps : List Param) :
    (ps.map (Param.toJson (F := F))).mapM Json.obj? = some (ps.map Param.fields) ∧
      (ps.map (Param.fields (F := F))).mapM fromJson = .ok (ps.map Param.raw) := by
  constructor
  · rw [mapM_some, List.forall₂_map_left_iff, List.forall₂_map_right_iff, List.forall₂_same]
    exact fun p _ => rfl
  · rw [mapM_ok, List.forall₂_map_left_iff, List.forall₂_map_right_iff, List.forall₂_same]
    exact fun p _ => fromJson_fields p

/-- **What `job_model` makes of the job of a round.** -/
theorem jobModel_functionJob (runJob : WorkerJob → JobResult) (x : FunctionRound F)
    (kept : List (Survivor F)) {r : JobResult} (hr : runJob (sentJob x kept) = r)
    (hclean : r.Clean) {out : Json F} (hout : loads r.stdout = some out) :
    jobModel runJob (functionJob x kept) =
      some (claim out (x.params.map Param.raw) kept.length) := by
  obtain ⟨-, -, -, hparams, hcases⟩ := lookup_functionJob x kept
  have hrun : runJob ⟨encode (dumps plain (.obj (functionJob x kept))),
      120 + kept.length * 7⟩ = r := hr
  have hfault : ¬(r.returncode ≠ 0 ∨ r.timedOut = true ∨ r.truncated = true) := by
    simp [hclean.1, hclean.2.1, hclean.2.2]
  obtain ⟨hobj, hread⟩ := readParams_functionJob (F := F) x.params
  simp only [jobModel, hcases, hparams, Json.arr?, Option.bind_eq_bind, Option.bind_some,
    List.length_map, hrun, if_neg hfault, hout, hobj, hread]
  rfl

/-- A job whose output is not read gives a stage. -/
theorem jobModel_stage (runJob : WorkerJob → JobResult) (x : FunctionRound F)
    (kept : List (Survivor F)) {r : JobResult} (hr : runJob (sentJob x kept) = r)
    (h : ¬(r.Clean ∧ ∃ out, loads (F := F) r.stdout = some out)) :
    ∃ t, jobModel runJob (functionJob x kept) = some (workerStage t) := by
  obtain ⟨-, -, -, -, hcases⟩ := lookup_functionJob x kept
  have hrun : runJob ⟨encode (dumps plain (.obj (functionJob x kept))),
      120 + kept.length * 7⟩ = r := hr
  simp only [jobModel, hcases, Json.arr?, Option.bind_eq_bind, Option.bind_some, List.length_map,
    hrun]
  by_cases hfault : r.returncode ≠ 0 ∨ r.timedOut = true ∨ r.truncated = true
  · rw [if_pos hfault]
    exact ⟨_, rfl⟩
  · rw [if_neg hfault]
    push Not at hfault
    rcases hl : loads (F := F) r.stdout with - | out
    · exact ⟨_, rfl⟩
    · exact absurd ⟨⟨hfault.1, by simpa using hfault.2.1, by simpa using hfault.2.2⟩, out, hl⟩ h

/-- The kinds of the parameters that are no scalars. -/
def kindsOf (ps : List Param) : Dict Kind := (memoryParams ps).map fun p => (p.name, p.kind)

theorem keys_kindsOf (ps : List Param) : (kindsOf ps).keys = (memoryParams ps).map Param.name := by
  simp [kindsOf, Dict.keys]

omit [Runtime F] in
theorem memKinds_raw {ps : List Param} (h : (ps.map Param.name).Nodup) :
    memKinds (ps.map (Param.raw (F := F))) = kindsOf ps := by
  have hentries : ((ps.map (Param.raw (F := F))).filterMap fun p =>
      if p.kind = .i32 then none else p.name.str?.map fun name => (name, p.kind)) =
      kindsOf ps := by
    clear h
    induction ps with
    | nil => rfl
    | cons p ps ih =>
        rw [List.map_cons, List.filterMap_cons, ih]
        by_cases hkind : p.kind = .i32
        · simp [kindsOf, memoryParams, Param.raw, hkind]
        · simp [kindsOf, memoryParams, Param.raw, hkind, Json.str?]
  rw [memKinds, hentries]
  refine Dict.update_nil ?_
  rw [keys_kindsOf]
  exact nodup_memoryParams h

omit [Runtime F] in
/-- **The shape of a value.** -/
theorem isValue_spec {mem : Dict Kind} {got : Json F} (h : isValue mem got = true) :
    ∃ d ret m, got = .obj d ∧ (∀ k, k ∈ Dict.keys d ↔ k = py "ret" ∨ k = py "mem") ∧
      d.lookup (py "ret") = some (.int ret) ∧ d.lookup (py "mem") = some (.obj m) ∧
      (∀ k, k ∈ Dict.keys m ↔ k ∈ mem.keys) ∧
      ∀ e ∈ m, memShape (mem.lookup e.1) e.2 = true := by
  cases got with
  | obj d =>
      rw [isValue, Bool.and_eq_true, sameKeys_iff] at h
      obtain ⟨hkeys, h⟩ := h
      split at h
      · rename_i ret m hd hm
        rw [Bool.and_eq_true, sameKeys_iff] at h
        exact ⟨d, ret, m, rfl, by simpa using hkeys, hd, hm, h.1, List.all_eq_true.mp h.2⟩
      · cases h
  | _ => cases h

/-! ### Agreement -/

/-- The memory behind one parameter, as the original left it and as a job reports it. -/
inductive MemMatches : Option (MemItem F) → Option (Json F) → Prop
  | cells (xs : List ℤ) : MemMatches (some (.json (cellsJson xs))) (some (cellsJson xs))
  | bytes {b : Bytes} {t : PyStr} (h : fromHex t = some b) :
      MemMatches (some (.bytes b)) (some (.str t))

/-- An answer of a job that is well shaped and agrees with the original: it has a number and the
memory of every parameter that is no scalar, and nothing else. -/
structure Agreement (ps : List Param) (s : Survivor F) (d : Dict (Json F)) (ret : ℤ)
    (m : Dict (Json F)) : Prop where
  keys : ∀ k, k ∈ Dict.keys d ↔ k = py "ret" ∨ k = py "mem"
  ret_eq : d.lookup (py "ret") = some (.int ret)
  mem_eq : d.lookup (py "mem") = some (.obj m)
  params : ∀ k, k ∈ Dict.keys m ↔ k ∈ (memoryParams ps).map Param.name
  mem : ∀ p ∈ memoryParams ps, MemMatches (s.mem.lookup p.name) (m.lookup p.name)
  ret : returnsVoid ps = false → ret = s.ret

theorem pyEqList_ints {xs : List ℤ} {ys : List (Json F)}
    (hys : ys.all (fun y => y.int?.isSome) = true) (h : pyEqList (xs.map .int) ys = true) :
    ys = xs.map .int := by
  induction xs generalizing ys with
  | nil => cases ys with
    | nil => rfl
    | cons y ys => cases h
  | cons x xs ih =>
      cases ys with
      | nil => cases h
      | cons y ys =>
          rw [List.map_cons, pyEqList, Bool.and_eq_true] at h
          rw [List.all_cons, Bool.and_eq_true] at hys
          obtain ⟨i, hi⟩ := Option.isSome_iff_exists.mp hys.1
          rw [Json.int?_eq_some.mp hi, pyEq, beq_iff_eq] at h
          rw [List.map_cons, ih hys.2 h.2, Json.int?_eq_some.mp hi, h.1]

theorem lookup_of_mapM {α β : Type} {f : PyStr → α → Option β} {d : Dict α} {e : Dict β}
    (h : d.mapM (fun p => (f p.1 p.2).map fun b => (p.1, b)) = some e) {k : PyStr} {b : β}
    (hb : e.lookup k = some b) : ∃ a, d.lookup k = some a ∧ f k a = some b := by
  have hall := mapM_some.mp h
  clear h
  induction hall with
  | nil => cases hb
  | @cons p q d e hpq _ ih =>
      obtain ⟨b', hb', rfl⟩ := Option.map_eq_some_iff.mp hpq
      rw [List.lookup_cons] at hb ⊢
      cases hk : k == p.1 with
      | true =>
          simp only [hk, Option.some.injEq] at hb ⊢
          rw [beq_iff_eq.mp hk]
          exact ⟨p.2, rfl, hb ▸ hb'⟩
      | false =>
          simp only [hk] at hb ⊢
          exact ih hb

theorem find?_name {ps : List Param} (h : (ps.map Param.name).Nodup) {p : Param} (hp : p ∈ ps) :
    (ps.find? fun q => q.name = p.name) = some p := by
  rcases hf : ps.find? fun q => q.name = p.name with - | q
  · have := List.find?_eq_none.mp hf p hp
    simp at this
  · have hname : q.name = p.name := by simpa using List.find?_some hf
    have hqp := List.inj_on_of_nodup_map h (List.mem_of_find?_eq_some hf) hp hname
    rw [hf, hqp]

theorem lookup_kindsOf {ps : List Param} (h : (ps.map Param.name).Nodup) {p : Param}
    (hp : p ∈ memoryParams ps) : (kindsOf ps).lookup p.name = some p.kind := by
  refine Dict.lookup_eq_some_of_mem ?_ (List.mem_map.mpr ⟨p, hp, rfl⟩)
  rw [keys_kindsOf]
  exact nodup_memoryParams h

/-- The memory of one parameter, when it was compared and found equal. -/
theorem memMatches_of_eq {ps : List Param} (h : (ps.map Param.name).Nodup) {p : Param}
    (hp : p ∈ ps) {case : Case} {final : Final} {item got : MemItem F} {v : Json F}
    (hitem : readItem case final p = some item) (hread : readMem ps p.name v = some got)
    (heq : item.eq got = true) (hshape : memShape (some p.kind) v = true) :
    MemMatches (some item) (some v) := by
  rw [readMem, find?_name h hp] at hread
  rcases readItem_shape hitem with ⟨hk, xs, rfl⟩ | ⟨hk, b, rfl⟩
  · simp only [hk, Option.some.injEq] at hread
    subst hread
    rw [hk] at hshape
    rcases hv : v.arr? with - | ys
    · simp [memShape, hv] at hshape
    · have hall : ys.all (fun y => y.int?.isSome) = true := by
        simpa only [memShape, hv, Option.any_some] using hshape
      rw [Json.arr?_eq_some.mp hv] at heq ⊢
      have hys := pyEqList_ints hall heq
      rw [hys]
      exact .cells xs
  · simp only [hk, Option.map_eq_some_iff] at hread
    obtain ⟨b', hb', rfl⟩ := hread
    obtain ⟨t, ht, hhex⟩ := Option.bind_eq_some_iff.mp hb'
    rw [Json.str?_eq_some.mp ht]
    have hbb : b = b' := beq_iff_eq.mp heq
    exact .bytes (hbb ▸ hhex)

/-- **An answer that is compared without a difference agrees with the original.** -/
theorem agreement_of_compare {original : Original} {ps : List Param}
    (h : (ps.map Param.name).Nodup) {s : Survivor F} (hs : Answered original ps s) {got : Json F}
    (hvalue : isValue (kindsOf ps) got = true) {seed : Json F}
    {skipped j : ℕ} (hcompare : compareCase ps seed skipped j s got = some none) :
    ∃ d ret m, got = .obj d ∧ Agreement ps s d ret m := by
  obtain ⟨-, ret', mem, hread, hmem, hret⟩ := compareCase_eq_none.mp hcompare
  obtain ⟨k, args, final, hargs, -, -, hback⟩ := hs
  obtain ⟨d, ret, m, rfl, hkeys, hd, hm, hparams, hshape⟩ := isValue_spec hvalue
  simp only [readAnswer, Json.get?, hd, hm, Json.obj?, Option.bind_eq_bind, Option.bind_some,
    Option.bind_eq_some_iff, Option.pure_def, Option.some.injEq] at hread
  obtain ⟨items, hitems, hpair⟩ := hread
  cases hpair
  refine ⟨d, ret, m, rfl, hkeys, hd, hm, ?_, ?_, ?_⟩
  · rw [← keys_kindsOf]
    exact hparams
  · intro p hp
    obtain ⟨hpp, hkind⟩ := List.mem_filter.mp hp
    have hkind := of_decide_eq_true hkind
    have hwant := lookup_readBack (F := F) h hargs final hpp hkind
    obtain ⟨item, hitem⟩ := Option.isSome_iff_exists.mp (readItem_isSome (F := F) final hkind
      (marshalCase_isSome.mp (Option.isSome_iff_exists.mpr ⟨args, hargs⟩) p hpp))
    rw [hback, hwant, hitem]
    -- what the original left in the parameter is compared under its name
    have hin : (p.name, item) ∈ s.mem := by
      rw [hback]
      exact Dict.mem_of_lookup_eq_some (hwant.trans hitem)
    rw [memEq, Bool.and_eq_true, List.all_eq_true] at hmem
    have hentry := hmem.2 _ hin
    dsimp only at hentry
    split at hentry
    · rename_i got hgot
      obtain ⟨v, hv, hread⟩ := lookup_of_mapM hitems hgot
      rw [hv]
      have hvshape := hshape _ (Dict.mem_of_lookup_eq_some hv)
      rw [lookup_kindsOf h hp] at hvshape
      exact memMatches_of_eq h hpp hitem hread hentry hvshape
    · cases hentry
  · intro hvoid
    have := hret hvoid
    rw [pyEq, beq_iff_eq] at this
    exact this.symm

/-- What a job reports, when its answer is accepted. -/
theorem results_of_accepted {original : Original} {ps : List Param}
    (h : (ps.map Param.name).Nodup) {kept : List (Survivor F)}
    (hkept : ∀ s ∈ kept, Answered original ps s) {out : Json F} {seed : Json F} {skipped : ℕ}
    {v : FnVerdict F}
    (hjudge : judgeClaim ps seed skipped kept (claim out (ps.map Param.raw) kept.length) = some v)
    (hok : v.ok = true) :
    (∃ d res, out = .obj d ∧ d.lookup (py "results") = some (.arr res) ∧
      List.Forall₂ (fun s got => ∃ d ret m, got = .obj d ∧ Agreement ps s d ret m) kept res) ∧
    v = ⟨true, none, kept.length, skipped, some seed⟩ := by
  obtain ⟨hstage, res', hres', hw, hcases⟩ := judgeClaim_ok hjudge hok
  obtain ⟨d, res, last, rfl, hres, hsplit, -, hbody, last', hlast, hclaim⟩ :=
    (claim_cases _ _ _).resolve_left fun hreport => hstage hreport.stage
  rw [memKinds_raw h] at hbody hlast
  obtain ⟨hv, hnone⟩ := compareCases_ok hcases hok
  rw [hclaim] at hres'
  obtain rfl : res.dropLast ++ [last'] = res' := by
    simpa [List.lookup_cons, Json.arr?] using hres'
  have hall := compared_all hw hnone
  obtain ⟨s, hs, j, hj⟩ := related_left hall (List.mem_append_right _ (List.mem_singleton_self _))
  obtain ⟨rfl, hlen, hvalue⟩ : last' = last ∧ res.length = kept.length ∧
      isValue (kindsOf ps) last = true := by
    rcases lastAnswer_spec hlast with ⟨c, rfl⟩ | ⟨hl, hcomplete, hvalue⟩
    · -- a crash at the end is a difference
      have := (compareCase_eq_none.mp hj).1
      simp [contains, Dict.keys] at this
    · exact ⟨hl, of_decide_eq_true hcomplete, hvalue⟩
  rw [← hsplit] at hall hv
  have hvalues : ∀ got ∈ res, isValue (kindsOf ps) got = true := by
    rw [hsplit]
    exact List.forall_mem_append.mpr ⟨hbody, by simpa using hvalue⟩
  refine ⟨⟨d, res, rfl, hres, ?_⟩, ?_⟩
  · refine List.forall₂_iff_zip.mpr ⟨hlen.symm, fun {s got} he => ?_⟩
    obtain ⟨k, hk⟩ := (List.forall₂_iff_zip.mp hall).2 he
    exact agreement_of_compare h (hkept s (List.of_mem_zip he).1)
      (hvalues got (List.of_mem_zip he).2) hk
  · rw [hv, List.length_zip, hlen, min_self, zero_add]

/-! ### The verdict -/

/-- What an accepted verdict vouches for. -/
structure Vouched (x : FunctionRound F) (wants : List (Want F)) (r : JobResult) (v : FnVerdict F) :
    Prop where
  arity : x.params.length ≤ 6
  channel : returnsVoid x.params = true →
    ∃ p ∈ x.params, p.kind = .bufferI32 ∨ p.kind = .cstring
  noMemFault : ∀ e ∈ x.round wants, e.1.declared = true → e.2 ≠ .fault true
  distinct : ∃ s ∈ survivors (x.round wants), ∃ t ∈ survivors (x.round wants),
    s.declared = true ∧ t.declared = true ∧ caseText F s.case ≠ caseText F t.case
  clean : r.Clean
  answers : ∃ d res, loads r.stdout = some (Json.obj (F := F) d) ∧
    d.lookup (py "results") = some (.arr res) ∧
    List.Forall₂ (fun s got => ∃ d ret m, got = .obj d ∧ Agreement x.params s d ret m)
      (survivors (x.round wants)) res
  compared : v.compared = (survivors (x.round wants)).length
  total : v.compared + v.skipped = x.nFuzz

omit [Runtime F] in
theorem exists_channel {ps : List Param} (h : scalarVoid ps = false)
    (hvoid : returnsVoid ps = true) : ∃ p ∈ ps, p.kind = .bufferI32 ∨ p.kind = .cstring := by
  rw [scalarVoid, hvoid, Bool.true_and, Bool.not_eq_false', List.any_eq_true] at h
  obtain ⟨p, hp, hkind⟩ := h
  exact ⟨p, hp, of_decide_eq_true hkind⟩

/-- What happened before an accepted verdict. -/
theorem validate_ok {x : FunctionRound F} {runModel : Dict (Json F) → Option (Dict (Json F))}
    {v : FnVerdict F} (h : validateFunction x runModel = some v) (hok : v.ok = true) :
    ∃ wants r, Answers x wants ∧ scalarVoid x.params = false ∧
      floors x.nFuzz x.seed (x.round wants) = .ok (survivors (x.round wants)) ∧
      runModel (functionJob x (survivors (x.round wants))) = some r ∧
      judgeClaim x.params x.seed ((x.round wants).length - (survivors (x.round wants)).length)
        (survivors (x.round wants)) r = some v := by
  rw [validateFunction] at h
  by_cases harity : registerCount < x.params.length
  · rw [if_pos harity] at h
    cases h
    cases hok
  rw [if_neg harity] at h
  by_cases hvoid : scalarVoid x.params = true
  · rw [if_pos hvoid] at h
    cases h
    cases hok
  rw [if_neg hvoid] at h
  obtain ⟨wants, hbatch, h⟩ := Option.bind_eq_some_iff.mp h
  have hround : x.cases.zip wants = x.round wants := rfl
  simp only [hround] at h
  rcases hfloors : floors x.nFuzz x.seed (x.round wants) with w | kept
  · simp only [hfloors] at h
    cases h
    obtain ⟨stage, detail, rfl⟩ := floors_reject hfloors
    cases hok
  · obtain ⟨rfl, -⟩ := floors_ok.mp hfloors
    simp only [hfloors] at h
    obtain ⟨r, hr, hjudge⟩ := Option.bind_eq_some_iff.mp h
    exact ⟨wants, r, ⟨hbatch, not_lt.mp harity⟩, by simpa using hvoid, hfloors, hr, hjudge⟩

/-- **A forged job cannot make a function pass.**  Whatever the job prints, an accepted verdict
means that it printed one answer for each case that the original survived, and every answer has
the original's memory and return value. -/
theorem validate_sound {raw : Bytes} {x : FunctionRound F} (hps : paramsOf F raw = .ok x.params)
    (runJob : WorkerJob → JobResult) {v : FnVerdict F}
    (h : validateFunction x (jobModel runJob) = some v) (hok : v.ok = true) :
    ∃ wants, batchCallOriginal F x.original x.params (x.cases.map RoundCase.case) = some wants ∧
      Vouched x wants (runJob (sentJob x (survivors (x.round wants)))) v := by
  have haccepted := paramsOf_accepted hps
  obtain ⟨wants, r, hanswers, hvoid, hfloors, hr, hjudge⟩ := validate_ok h hok
  obtain ⟨-, hfaults, htwo⟩ := floors_ok.mp hfloors
  refine ⟨wants, hanswers.batch, ?_⟩
  by_cases hread : (runJob (sentJob x (survivors (x.round wants)))).Clean ∧
      ∃ out, loads (F := F) (runJob (sentJob x (survivors (x.round wants)))).stdout = some out
  · obtain ⟨hclean, out, hout⟩ := hread
    have hmodel := jobModel_functionJob runJob x (survivors (x.round wants)) rfl hclean hout
    obtain rfl := Option.some.inj (hmodel.symm.trans hr)
    obtain ⟨⟨d, res, rfl, hres, hall⟩, rfl⟩ :=
      results_of_accepted haccepted.nodup (fun s hs => hanswers.answered hs) hjudge hok
    refine ⟨hanswers.arity, exists_channel hvoid, ?_, exists_distinct htwo, hclean,
      ⟨d, res, hout, hres, hall⟩, rfl, ?_⟩
    · rintro e he hd hfault
      have := hfaults e he hd
      rw [hfault] at this
      cases this
    · have := length_survivors_le (x.round wants)
      rw [← hanswers.length]
      show (survivors (x.round wants)).length + ((x.round wants).length - _) = _
      omega
  · -- a stage passes through, and is no acceptance
    obtain ⟨t, hmodel⟩ := jobModel_stage runJob x (survivors (x.round wants)) rfl hread
    obtain rfl := Option.some.inj (hmodel.symm.trans hr)
    exact absurd (by simp [workerStage, Dict.keys]) (judgeClaim_ok hjudge hok).1

/-- A round of two cases for a function that clears a buffer and returns zero. -/
def zeroRound : FunctionRound ZeroFloat where
  func := py "zero"
  source := py "int zero(int n, int *b) \x7b while (n > 0) b[--n] = 0; return 0; \x7d"
  params := [⟨py "n", .i32, none, 1, 2, .i32⟩, ⟨py "b", .bufferI32, some (py "n"), 0, 9, .i32⟩]
  seed := .int 0
  stream := id
  nFuzz := 2
  immediates := []
  original := fun _ _ => .returned ⟨0, fun _ _ => 0, fun _ _ => 0⟩

/-- What the original answers, and what it survives. -/
def zeroWants : List (Want ZeroFloat) :=
  [.ran 0 [(py "b", .json (cellsJson [0]))], .ran 0 [(py "b", .json (cellsJson [0, 0]))]]

def zeroKept : List (Survivor ZeroFloat) := survivors (zeroRound.round zeroWants)

theorem batch_zeroRound : batchCallOriginal ZeroFloat zeroRound.original zeroRound.params
    (zeroRound.cases.map RoundCase.case) = some zeroWants := rfl

theorem floors_zeroRound :
    floors zeroRound.nFuzz zeroRound.seed (zeroRound.round zeroWants) = .ok zeroKept :=
  floors_ok.mpr ⟨rfl, by decide, by decide +kernel⟩

/-- The answer of an honest job to that round. -/
def zeroAnswer (xs : List ℤ) : Json ZeroFloat :=
  .obj [(py "ret", .int 0), (py "mem", .obj [(py "b", cellsJson xs)])]
def zeroOutput : Json ZeroFloat := .obj [(py "results", .arr [zeroAnswer [0], zeroAnswer [0, 0]])]

def zeroJob : JobResult where
  returncode := 0
  timedOut := false
  truncated := false
  stdout := encode (dumps plain zeroOutput)
  stderr := []
  stdout_le := by decide +kernel
  stderr_lt := nil_stderr_lt
  returncode_lt := zero_returncode_lt

theorem accepted_zeroRound : Accepted zeroRound.params where
  names := by decide
  nodup := by decide
  range := by decide
  lengths := by simp [zeroRound]
  sizing := by decide

theorem loads_zeroJob : loads (F := ZeroFloat) zeroJob.stdout = some zeroOutput := by
  have hdepth : Runtime.maxDepth ZeroFloat = 1000 := rfl
  have hpos : 0 < 10 ^ maxStrDigits := Nat.pow_pos (by decide)
  refine loads_dumps plain_blank ?_ ?_
  · simp [zeroOutput, zeroAnswer, cellsJson, hdepth, Json.Fits, FitsDict, FitsList, hpos]
  · have hresults : joinPairs (py "results") = py "results" := joinPairs_py (by decide)
    have hret : joinPairs (py "ret") = py "ret" := joinPairs_py (by decide)
    have hmem : joinPairs (py "mem") = py "mem" := joinPairs_py (by decide)
    have hb : joinPairs (py "b") = py "b" := joinPairs_py (by decide)
    simp only [zeroOutput, zeroAnswer, cellsJson, Json.Clean, CleanDict, CleanList, Dict.keys,
      hresults, hret, hmem, hb]
    simp [CleanList, Json.Clean]

theorem validate_zeroRound : validateFunction zeroRound (jobModel fun _ => zeroJob) =
    some ⟨true, none, 2, 0, some (.int 0)⟩ := by
  have hmodel := jobModel_functionJob (fun _ => zeroJob) zeroRound zeroKept rfl ⟨rfl, rfl, rfl⟩
    loads_zeroJob
  have hround : zeroRound.cases.zip zeroWants = zeroRound.round zeroWants := rfl
  rw [validateFunction, if_neg (by decide), if_neg (by decide), batch_zeroRound]
  simp only [Option.bind_eq_bind, Option.bind_some, hround, floors_zeroRound, hmodel]
  rfl

theorem validate_sound_zero : ∃ wants, batchCallOriginal ZeroFloat zeroRound.original
    zeroRound.params (zeroRound.cases.map RoundCase.case) = some wants ∧
      Vouched zeroRound wants zeroJob ⟨true, none, 2, 0, some (.int 0)⟩ :=
  validate_sound (paramsOf_dumps accepted_zeroRound) (fun _ => zeroJob) validate_zeroRound rfl

end ReSchema
