/-
ReSchema/FunctionComplete.lean

The verdict on a job that ran the worker.

The host accepts the shape of everything the worker prints
(`claim_workerOutput`), and compares it case by case (`compareCase_hostAnswer`).
So the verdict is that of the candidate itself: it passes when it agrees with
the original on every case, and otherwise the first case on which it does not
is reported (`honest_verdict`).
-/
import ReSchema.HonestWorker

namespace ReSchema

open Py

variable {F : Type} [Runtime F]

/-! ### The claim of the worker -/

/-- An answer of the worker as the host reads it. -/
def hostAnswer (F : Type) [Runtime F] (ps : List Param) (case : Case) (o : NativeOutcome) : Json F :=
  match crashOf F o with
  | some c => .obj [(py "crash", crashShape c)]
  | none => answer F ps case o

/-- The answers of the worker as the host reads them. -/
def hostAnswersFrom (F : Type) [Runtime F] (ps : List Param) (model : Model) :
    ℕ → List (Survivor F) → List (Json F)
  | _, [] => []
  | k, s :: kept =>
      let o := model k (nativeArgs ps s.case)
      hostAnswer F ps s.case o ::
        if (crashOf F o).isSome then [] else hostAnswersFrom F ps model (k + 1) kept

omit [Runtime F] in
/-- What is reported for a parameter has the shape that its kind asks for. -/
theorem memShape_report {ps : List Param} (h : (ps.map Param.name).Nodup) {case : Case}
    {final : Final} {e : PyStr × MemItem F} (he : e ∈ readBack ps case final) :
    memShape ((kindsOf ps).lookup e.1) e.2.report = true := by
  obtain ⟨name, item⟩ := e
  obtain ⟨p, hp, hkind, rfl, hitem⟩ := exists_of_mem_readBack he
  rw [lookup_kindsOf h (List.mem_filter.mpr ⟨hp, decide_eq_true hkind⟩)]
  rcases readItem_shape hitem with ⟨hk, xs, rfl⟩ | ⟨hk, b, rfl⟩
  · rw [hk]
    simp [memShape, MemItem.report, cellsJson, Json.arr?, Json.int?]
  · rw [hk]
    simp [memShape, MemItem.report, Json.str?]

omit [Runtime F] in
/-- **The host takes an answer for a value.** -/
theorem isValue_answer {ps : List Param} (h : (ps.map Param.name).Nodup) {s : Survivor F}
    (hs : Runnable ps s) (final : Final) :
    isValue (kindsOf ps) (answer F ps s.case (.returned final)) =
      true := by
  obtain ⟨args, hargs⟩ := Option.isSome_iff_exists.mp hs.marshalled
  -- the host asks for the right parameters, the right shapes, and the two keys around them
  have hkeys : Dict.keys (reported F ps s.case final) =
      Dict.keys (kindsOf ps) := by
    rw [keys_reported, keys_readBack hargs, keys_kindsOf]
  have hsame : sameKeys (Dict.keys (reported F ps s.case final))
      (Dict.keys (kindsOf ps)) = true := by
    rw [hkeys, sameKeys_iff]
    exact fun k => Iff.rfl
  have hshape : (reported F ps s.case final).all (fun e =>
      memShape ((kindsOf ps).lookup e.1) e.2) = true := by
    rw [List.all_eq_true]
    intro e' he'
    obtain ⟨e, he, rfl⟩ := List.mem_map.mp he'
    exact memShape_report h he
  have houter : sameKeys (Dict.keys [(py "ret", Json.int final.ret.toInt),
      (py "mem", .obj (reported F ps s.case final))]) [py "ret", py "mem"] = true :=
    sameKeys_iff.mpr fun k => Iff.rfl
  have hret : List.lookup (py "ret") [(py "ret", Json.int final.ret.toInt),
      (py "mem", .obj (reported F ps s.case final))] = some (.int final.ret.toInt) := by
    simp
  have hmem : List.lookup (py "mem") [(py "ret", Json.int final.ret.toInt),
      (py "mem", .obj (reported F ps s.case final))] =
      some (.obj (reported F ps s.case final)) := by
    simp [List.lookup_cons]
  rw [answer, isValue, houter, Bool.true_and]
  simp only [hret, hmem, hsame, hshape, Bool.and_true]

/-- What the host makes of the last answer. -/
theorem lastAnswer_answer {ps : List Param} (h : (ps.map Param.name).Nodup) {s : Survivor F}
    (hs : Runnable ps s) {o : NativeOutcome} {complete : Bool}
    (hcomplete : (crashOf F o).isSome = false → complete = true) :
    lastAnswer (kindsOf ps) complete (answer F ps s.case o) =
      some (hostAnswer F ps s.case o) := by
  rcases hc : crashOf F o with - | c
  · obtain ⟨c, hcrash⟩ | ⟨final, rfl⟩ := crashOf_cases F o
    · rw [hc] at hcrash
      cases hcrash
    · have hvalue := isValue_answer (F := F) h hs final
      have htrue := hcomplete (by rw [hc]; rfl)
      subst htrue
      rw [hostAnswer, hc, lastAnswer]
      split
      · rename_i k c hobj
        cases hobj
      · rw [hvalue]
        rfl
  · rw [hostAnswer, hc, answer_of_crash hc]
    rfl

/-- The list of the worker's answers is one that the host accepts. -/
theorem answersFrom_spec {ps : List Param} (h : (ps.map Param.name).Nodup) (model : Model)
    {kept : List (Survivor F)} (hne : kept ≠ []) (hkept : ∀ s ∈ kept, Runnable ps s) (k : ℕ) :
    ∃ body last last', answersFrom F ps model k kept = body ++ [last] ∧
      body.length + 1 ≤ kept.length ∧
      (∀ got ∈ body, isValue (kindsOf ps) got = true) ∧
      lastAnswer (kindsOf ps) (decide (body.length + 1 = kept.length)) last =
        some last' ∧ hostAnswersFrom F ps model k kept = body ++ [last'] := by
  induction kept generalizing k with
  | nil => exact absurd rfl hne
  | cons s kept ih =>
      obtain ⟨hs, hkept⟩ := List.forall_mem_cons.mp hkept
      rw [answersFrom, hostAnswersFrom]
      -- a crash ends the list, whatever cases are left
      rcases hc : crashOf F (model k (nativeArgs ps s.case)) with - | c
      · obtain ⟨c, hcrash⟩ | ⟨final, ho⟩ := crashOf_cases F (model k (nativeArgs ps s.case))
        · rw [hc] at hcrash
          cases hcrash
        rcases kept with - | ⟨t, kept⟩
        · refine ⟨[], _, _, rfl, le_refl _, by simp, lastAnswer_answer h hs fun _ => by simp, rfl⟩
        · obtain ⟨body, last, last', hbody, hlen, hvalues, hlast, hhost⟩ :=
            ih (List.cons_ne_nil t kept) hkept (k + 1)
          refine ⟨answer F ps s.case (.returned final) :: body, last, last', ?_, ?_, ?_, ?_, ?_⟩
          · simp only [Option.isSome_none, Bool.false_eq_true, if_false, hbody, ho,
              List.cons_append]
          · simpa using hlen
          · exact List.forall_mem_cons.mpr ⟨isValue_answer h hs final, hvalues⟩
          · simpa using hlast
          · simp only [Option.isSome_none, Bool.false_eq_true, if_false, hhost, ho, hostAnswer,
              crashOf, List.cons_append]
      · refine ⟨[], _, _, rfl, by simp, by simp, lastAnswer_answer h hs fun hnone => ?_, rfl⟩
        rw [hc] at hnone
        cases hnone

/-- **The host accepts the worker's list.** -/
theorem claim_workerOutput {ps : List Param} (h : (ps.map Param.name).Nodup) (model : Model)
    {kept : List (Survivor F)} (hne : kept ≠ []) (hkept : ∀ s ∈ kept, Runnable ps s) :
    claim (workerOutput F ps model kept) (ps.map Param.raw) kept.length =
      [(py "results", .arr (hostAnswersFrom F ps model 0 kept))] := by
  obtain ⟨body, last, last', hbody, hlen, hvalues, hlast, hhost⟩ :=
    answersFrom_spec h model hne hkept 0
  have hstage : py "stage" ∉ Dict.keys [(py "ok", Json.bool (F := F) true),
      (py "results", .arr (answersFrom F ps model 0 kept))] := by simp [Dict.keys]
  have hresults : List.lookup (py "results") [(py "ok", Json.bool (F := F) true),
      (py "results", .arr (answersFrom F ps model 0 kept))] =
      some (.arr (answersFrom F ps model 0 kept)) := by simp [List.lookup_cons]
  have hcount : ¬kept.length < body.length + 1 := by omega
  have hall : body.all (isValue (kindsOf ps)) = true := List.all_eq_true.mpr hvalues
  have hlength : (body ++ [last]).length = body.length + 1 := by simp
  rw [workerOutput, claim, if_neg hstage, hresults, memKinds_raw h]
  simp only [Option.bind_some, Json.arr?, hbody, List.getLast?_concat, hlength, if_neg hcount,
    hlast, List.dropLast_concat, hall, if_true, hhost]

/-! ### The comparison -/

omit [Runtime F] in
theorem readMem_report {ps : List Param} (h : (ps.map Param.name).Nodup) {case : Case}
    {final : Final} {e : PyStr × MemItem F} (he : e ∈ readBack ps case final) :
    readMem ps e.1 e.2.report = some e.2 := by
  obtain ⟨name, item⟩ := e
  obtain ⟨p, hp, -, rfl, hitem⟩ := exists_of_mem_readBack he
  rw [readMem, find?_name h hp]
  rcases readItem_shape hitem with ⟨hk, xs, rfl⟩ | ⟨hk, b, rfl⟩
  · simp only [hk, MemItem.report]
  · simp [hk, MemItem.report, Json.str?]

omit [Runtime F] in
/-- **The host reads the answer back.** -/
theorem readAnswer_answer {ps : List Param} (h : (ps.map Param.name).Nodup) (case : Case)
    (final : Final) : readAnswer ps (answer F ps case (.returned final)) =
      some (.int final.ret.toInt, readBack ps case final) := by
  have hitems : (reported F ps case final).mapM (fun e =>
      (readMem ps e.1 e.2).map fun item => (e.1, item)) = some (readBack ps case final) := by
    rw [mapM_some, reported, List.forall₂_map_left_iff, List.forall₂_same]
    intro e he
    rw [readMem_report h he]
    rfl
  have hret : (answer F ps case (.returned final)).get? (py "ret") =
      some (.int final.ret.toInt) := by simp [answer, Json.get?]
  have hmem : (answer F ps case (.returned final)).get? (py "mem") =
      some (.obj (reported F ps case final)) := by simp [answer, Json.get?, List.lookup_cons]
  simp only [readAnswer, hret, hmem, Option.bind_eq_bind, Option.bind_some, Json.obj?, hitems,
    Option.pure_def]

theorem pyEq_cells {xs ys : List ℤ} : pyEq (cellsJson xs : Json F) (cellsJson ys) = true ↔
    xs = ys := by
  rw [cellsJson, cellsJson, pyEq]
  induction xs generalizing ys with
  | nil => cases ys <;> simp [pyEqList]
  | cons x xs ih =>
      cases ys with
      | nil => simp [pyEqList]
      | cons y ys => simp [pyEqList, pyEq, ih]

theorem MemItem.eq_iff {case case' : Case} {final final' : Final} {p : Param}
    {item item' : MemItem F} (h : readItem case final p = some item)
    (h' : readItem case' final' p = some item') : item.eq item' = true ↔ item = item' := by
  rcases readItem_shape h with ⟨hk, xs, rfl⟩ | ⟨hk, b, rfl⟩
  · rcases readItem_shape h' with ⟨-, ys, rfl⟩ | ⟨hk', -⟩
    · rw [MemItem.eq, pyEq_cells, MemItem.json.injEq]
      constructor
      · rintro rfl
        rfl
      · intro hcells
        have hints := Json.arr.inj hcells
        exact List.map_injective_iff.mpr (fun _ _ => Json.int.inj) hints
    · rw [hk] at hk'
      cases hk'
  · rcases readItem_shape h' with ⟨hk', -⟩ | ⟨-, b', rfl⟩
    · rw [hk] at hk'
      cases hk'
    · rw [MemItem.eq, beq_iff_eq, MemItem.bytes.injEq]

/-- **Two memories of one case compare as equal exactly when they are.** -/
theorem memEq_readBack {ps : List Param} (h : (ps.map Param.name).Nodup) {case : Case}
    {args : List Arg} (hargs : marshalCase ps case = some args) (final final' : Final) :
    memEq (readBack (F := F) ps case final) (readBack ps case final') = true ↔
      readBack (F := F) ps case final' = readBack ps case final := by
  -- every parameter but the scalars has an item, under its own name
  have hentry : ∀ (f : Final) {p : Param}, p ∈ ps → p.kind ≠ .i32 →
      ∃ item, readItem (F := F) case f p = some item ∧
        (readBack (F := F) ps case f).lookup p.name = some item := by
    intro f p hp hkind
    obtain ⟨item, hitem⟩ := Option.isSome_iff_exists.mp (readItem_isSome (F := F) f hkind
      (marshalCase_isSome.mp (Option.isSome_iff_exists.mpr ⟨args, hargs⟩) p hp))
    exact ⟨item, hitem, (lookup_readBack h hargs f hp hkind).trans hitem⟩
  rw [memEq, Bool.and_eq_true, List.all_eq_true]
  constructor
  · rintro ⟨-, hall⟩
    refine List.filterMap_congr fun p hp => ?_
    by_cases hkind : p.kind = .i32
    · rw [readItem_scalar final hkind, readItem_scalar final' hkind]
    · obtain ⟨item, hitem, hlookup⟩ := hentry final hp hkind
      obtain ⟨item', hitem', hlookup'⟩ := hentry final' hp hkind
      have := hall _ (Dict.mem_of_lookup_eq_some hlookup)
      simp only [hlookup'] at this
      rw [hitem, hitem', (MemItem.eq_iff hitem hitem').mp this]
  · intro heq
    rw [heq, beq_self_eq_true]
    refine ⟨rfl, fun e he => ?_⟩
    obtain ⟨name, item⟩ := e
    obtain ⟨p, hp, hkind, rfl, hitem⟩ := exists_of_mem_readBack he
    rw [lookup_readBack h hargs final hp hkind, hitem]
    exact (MemItem.eq_iff hitem hitem).mpr rfl

/-! ### The verdict on a candidate -/

/-- The candidate agrees with the original on a case: it returns, with the same memory and, unless
the function is `void`, the same number. -/
def AgreesOn (ps : List Param) (s : Survivor F) (o : NativeOutcome) : Prop :=
  ∃ final, o = .returned final ∧ readBack ps s.case final = s.mem ∧
    (returnsVoid ps = false → final.ret.toInt = s.ret)

/-- How a candidate differs from the original on a case: the field, and the texts of what was
expected and what came.  The memory goes before the number. -/
inductive DiffersOn (ps : List Param) (s : Survivor F) :
    NativeOutcome → PyStr → PyStr → PyStr → Prop
  | crash {o : NativeOutcome} {c : Json F} (h : crashOf F o = some c) :
      DiffersOn ps s o (py "crash") (py "no crash") (crashText (crashShape c))
  | mem {final : Final} (h : readBack ps s.case final ≠ s.mem) :
      DiffersOn ps s (.returned final) (py "mem") ((memText s.mem).take 400)
        ((memText (readBack (F := F) ps s.case final)).take 400)
  | ret {final : Final} (hmem : readBack ps s.case final = s.mem)
      (hvoid : returnsVoid ps = false) (h : final.ret.toInt ≠ s.ret) :
      DiffersOn ps s (.returned final) (py "ret") ((intText s.ret).take 400)
        ((intText final.ret.toInt).take 400)

theorem DiffersOn.not_agrees {ps : List Param} {s : Survivor F} {o : NativeOutcome}
    {field expected actual : PyStr} (h : DiffersOn ps s o field expected actual) :
    ¬AgreesOn ps s o := by
  rintro ⟨final, rfl, hmem, hret⟩
  cases h with
  | crash h => cases h
  | mem h => exact h hmem
  | ret _ hvoid h => exact h (hret hvoid)

/-- **One round of the host's loop.** -/
theorem compareCase_hostAnswer {original : Original} {ps : List Param}
    (h : (ps.map Param.name).Nodup) {s : Survivor F} (hs : Answered original ps s)
    (o : NativeOutcome) (seed : Json F) (skipped compared : ℕ) :
    (AgreesOn ps s o ∧
      compareCase ps seed skipped compared s (hostAnswer F ps s.case o) = some none) ∨
    ∃ field expected actual, DiffersOn ps s o field expected actual ∧
      compareCase ps seed skipped compared s (hostAnswer F ps s.case o) =
        some (some (fieldReject s field expected actual seed compared skipped)) := by
  obtain ⟨c, hc⟩ | ⟨final, rfl⟩ := crashOf_cases F o
  · right
    refine ⟨_, _, _, .crash hc, ?_⟩
    -- the crash goes first
    have hcontains : contains (py "crash") (Json.obj [(py "crash", crashShape c)]) = some true := by
      simp [contains, Dict.keys]
    have hget : (Json.obj [(py "crash", crashShape c)]).get? (py "crash") =
        some (crashShape c) := by simp [Json.get?]
    rw [hostAnswer, hc]
    simp only [compareCase, hcontains, hget, Option.bind_eq_bind, Option.bind_some, if_true]
    rfl
  · obtain ⟨j, args, final', hargs, -, -, hback⟩ := hs
    have hanswer : hostAnswer F ps s.case (.returned final) =
        answer F ps s.case (.returned final) := rfl
    have hcontains : contains (py "crash") (answer F ps s.case (.returned final)) = some false :=
      contains_answer ps s.case (.returned final)
    have hread := readAnswer_answer (F := F) h s.case final
    have hmemEq : memEq s.mem (readBack ps s.case final) = true ↔
        readBack ps s.case final = s.mem := by
      rw [hback]
      exact memEq_readBack h hargs final' final
    have hretEq : pyEq (F := F) (.int s.ret) (.int final.ret.toInt) = true ↔
        final.ret.toInt = s.ret := by
      rw [pyEq, beq_iff_eq]
      exact eq_comm
    -- then the memory, and the number last, unless the function is `void`
    by_cases hmem : readBack ps s.case final = s.mem
    · have hm := hmemEq.mpr hmem
      by_cases hvoid : returnsVoid ps = false
      · by_cases hret : final.ret.toInt = s.ret
        · left
          refine ⟨⟨final, rfl, hmem, fun _ => hret⟩, ?_⟩
          rw [hanswer, compareCase_eq_none]
          exact ⟨hcontains, _, _, hread, hm, fun _ => hretEq.mpr hret⟩
        · right
          refine ⟨_, _, _, .ret hmem hvoid hret, ?_⟩
          have hne : pyEq (F := F) (.int s.ret) (.int final.ret.toInt) = false := by
            rw [← Bool.not_eq_true, hretEq]
            exact hret
          simp [compareCase, hanswer, hcontains, hread, hm, hvoid, hne, pyStr, pyRepr]
      · left
        refine ⟨⟨final, rfl, hmem, fun hfalse => absurd hfalse hvoid⟩, ?_⟩
        rw [hanswer, compareCase_eq_none]
        exact ⟨hcontains, _, _, hread, hm, fun hfalse => absurd hfalse hvoid⟩
    · right
      refine ⟨_, _, _, .mem hmem, ?_⟩
      have hm : memEq s.mem (readBack ps s.case final) = false := by
        rw [← Bool.not_eq_true, hmemEq]
        exact hmem
      simp [compareCase, hanswer, hcontains, hread, hm]

/-- **The host's loop**: it ends well when the candidate agrees on every case, and otherwise at
the first case where it does not. -/
theorem compareCases_hostAnswers {original : Original} {ps : List Param}
    (h : (ps.map Param.name).Nodup) (model : Model) (seed : Json F) (skipped : ℕ)
    {kept : List (Survivor F)} (hkept : ∀ s ∈ kept, Answered original ps s) (k : ℕ) :
    ((∀ i s, kept[i]? = some s → AgreesOn ps s (model (k + i) (nativeArgs ps s.case))) ∧
      compareCases ps seed skipped k (kept.zip (hostAnswersFrom F ps model k kept)) =
        some ⟨true, none, k + kept.length, skipped, some seed⟩) ∨
    ∃ i s field expected actual, kept[i]? = some s ∧
      (∀ j < i, ∀ t, kept[j]? = some t → AgreesOn ps t (model (k + j) (nativeArgs ps t.case))) ∧
      DiffersOn ps s (model (k + i) (nativeArgs ps s.case)) field expected actual ∧
      compareCases ps seed skipped k (kept.zip (hostAnswersFrom F ps model k kept)) =
        some (fieldReject s field expected actual seed (k + i + 1) skipped) := by
  induction kept generalizing k with
  | nil => exact .inl ⟨by simp, rfl⟩
  | cons s kept ih =>
      obtain ⟨hs, hkept⟩ := List.forall_mem_cons.mp hkept
      rcases compareCase_hostAnswer h hs (model k (nativeArgs ps s.case)) seed skipped (k + 1) with
        ⟨hagrees, hnone⟩ | ⟨field, expected, actual, hdiffers, hreject⟩
      · -- no crash, so both lists go on
        have hcontinue : compareCases ps seed skipped k ((s :: kept).zip
            (hostAnswersFrom F ps model k (s :: kept))) =
            compareCases ps seed skipped (k + 1)
              (kept.zip (hostAnswersFrom F ps model (k + 1) kept)) := by
          obtain ⟨final, ho, -⟩ := id hagrees
          have hcrash : crashOf F (model k (nativeArgs ps s.case)) = none := by rw [ho]; rfl
          rw [hostAnswersFrom]
          simp only [hcrash, Option.isSome_none, Bool.false_eq_true, if_false, List.zip_cons_cons,
            compareCases, hnone]
        rcases ih hkept (k + 1) with ⟨hall, hok⟩ | ⟨i, t, field, expected, actual, ht, hbefore,
          hdiffers, hreject⟩
        · left
          refine ⟨fun i t ht => ?_, ?_⟩
          · cases i with
            | zero =>
                obtain rfl := Option.some.inj ht
                exact hagrees
            | succ i =>
                have := hall i t ht
                rwa [Nat.add_assoc, Nat.add_comm 1 i] at this
          · rw [hcontinue, hok, List.length_cons, Nat.add_assoc, Nat.add_comm 1]
        · right
          refine ⟨i + 1, t, field, expected, actual, ht, fun j hj u hu => ?_, ?_, ?_⟩
          · cases j with
            | zero =>
                obtain rfl := Option.some.inj hu
                exact hagrees
            | succ j =>
                have := hbefore j (by omega) u hu
                rwa [Nat.add_assoc, Nat.add_comm 1 j] at this
          · rwa [Nat.add_assoc, Nat.add_comm 1 i] at hdiffers
          · rw [hcontinue, hreject, Nat.add_assoc k 1 i, Nat.add_comm 1 i]
      · right
        refine ⟨0, s, field, expected, actual, rfl, by simp, hdiffers, ?_⟩
        rw [hostAnswersFrom]
        simp only [List.zip_cons_cons, compareCases, hreject]

/-- The list that the host reads is one that it compares. -/
theorem wellFormed_hostAnswers {ps : List Param} (h : (ps.map Param.name).Nodup) (model : Model)
    {kept : List (Survivor F)} (hne : kept ≠ []) (hkept : ∀ s ∈ kept, Runnable ps s) :
    wellFormedResults kept.length (hostAnswersFrom F ps model 0 kept) = some true := by
  obtain ⟨body, last, last', -, hlen, -, hlast, hhost⟩ := answersFrom_spec h model hne hkept 0
  have hlength : (body ++ [last']).length = body.length + 1 := by simp
  rw [hhost, wellFormedResults, hlength]
  -- a list that is too short must end with a crash
  by_cases hcomplete : body.length + 1 = kept.length
  · rw [if_pos hcomplete]
  · rw [if_neg hcomplete, if_pos ⟨by omega, by omega⟩, List.getLast?_concat, Option.bind_some]
    rcases lastAnswer_spec hlast with ⟨c, rfl⟩ | ⟨-, htrue, -⟩
    · simp [contains, Dict.keys]
    · exact absurd (of_decide_eq_true htrue) hcomplete

omit [Runtime F] in
/-- A round that reaches the job: what it survived can be run. -/
theorem runnable_of_kept {x : FunctionRound F} (ha : Accepted x.params) {wants : List (Want F)}
    (hanswers : Answers x wants) {s : Survivor F} (hs : s ∈ survivors (x.round wants)) :
    Runnable x.params s := by
  obtain ⟨j, args, final, hargs, -, -, -⟩ := hanswers.answered hs
  have hcase : s.toRoundCase ∈ x.cases := (List.of_mem_zip (mem_survivors.mp hs)).1
  exact ⟨x.tame ha hcase, Option.isSome_iff_exists.mpr ⟨args, hargs⟩⟩

/-- **The comparison is reached**: the output of the worker goes through whole. -/
theorem validate_workerOutput [LawfulRuntime F] {x : FunctionRound F} (ha : Accepted x.params)
    (hvoid : scalarVoid x.params = false) {wants : List (Want F)} (hanswers : Answers x wants)
    (hfloors : floors x.nFuzz x.seed (x.round wants) = .ok (survivors (x.round wants)))
    (model : Model) {runJob : WorkerJob → JobResult}
    (hclean : (runJob (sentJob x (survivors (x.round wants)))).Clean)
    (hout : (runJob (sentJob x (survivors (x.round wants)))).stdout =
      encode (dumps plain (workerOutput F x.params model (survivors (x.round wants))))) :
    validateFunction x (jobModel runJob) =
      compareCases x.params x.seed (x.nFuzz - (survivors (x.round wants)).length) 0
        ((survivors (x.round wants)).zip
          (hostAnswersFrom F x.params model 0 (survivors (x.round wants)))) := by
  have hrunnable : ∀ s ∈ survivors (x.round wants), Runnable x.params s := fun s hs =>
    runnable_of_kept ha hanswers hs
  -- the floor asks for two distinct answers, so there are cases to run
  have hne : survivors (x.round wants) ≠ [] := by
    intro hnil
    have htwo := (floors_ok.mp hfloors).2.2
    rw [hnil] at htwo
    simp [distinctTexts] at htwo
  have hread : loads (F := F) (runJob (sentJob x (survivors (x.round wants)))).stdout =
      some (workerOutput F x.params model (survivors (x.round wants))) := by
    rw [hout]
    exact loads_workerOutput ha (fun s hs => (hrunnable s hs).tame) model
  have hmodel := jobModel_functionJob runJob x (survivors (x.round wants)) rfl hclean hread
  rw [claim_workerOutput ha.nodup model hne hrunnable] at hmodel
  have hround : x.cases.zip wants = x.round wants := rfl
  have hwell := wellFormed_hostAnswers ha.nodup model hne hrunnable
  have hstage : py "stage" ∉ Dict.keys [(py "results", Json.arr
      (hostAnswersFrom F x.params model 0 (survivors (x.round wants))))] := by simp [Dict.keys]
  rw [validateFunction, if_neg (not_lt.mpr hanswers.arity), if_neg (by simp [hvoid]),
    hanswers.batch]
  simp only [Option.bind_eq_bind, Option.bind_some, hround, hfloors, hmodel]
  rw [judgeClaim, if_neg hstage]
  simp only [List.lookup_cons, beq_self_eq_true, Option.bind_eq_bind, Option.bind_some,
    Json.arr?, hwell, if_true, hanswers.length]

/-- **The verdict on an honest job is that of the candidate.**  When the candidate is built, the
worker runs it on the job that was sent, and its output comes back whole, the function passes
exactly when the candidate agrees with the original on every case that survived; otherwise the
verdict reports the first case on which it does not, as the input, and the field in which it differs
there. -/
theorem honest_verdict [LawfulRuntime F] {raw : Bytes} {x : FunctionRound F}
    (hps : paramsOf F raw = .ok x.params) (harity : x.params.length ≤ 6)
    (hvoid : scalarVoid x.params = false) {wants : List (Want F)}
    (hbatch : batchCallOriginal F x.original x.params (x.cases.map RoundCase.case) = some wants)
    {kept : List (Survivor F)} (hfloors : floors x.nFuzz x.seed (x.round wants) = .ok kept)
    {build : Build F} (hbuild : build (joinPairs x.func) (joinPairs x.source) = none)
    (model : Model) {runJob : WorkerJob → JobResult} (hclean : (runJob (sentJob x kept)).Clean)
    (hworker : workerMain build model (sentJob x kept).stdin =
      some (runJob (sentJob x kept)).stdout) :
    ∃ v, validateFunction x (jobModel runJob) = some v ∧
      (v.ok = true ↔ ∀ i s, kept[i]? = some s →
        AgreesOn x.params s (model i (nativeArgs x.params s.case))) ∧
      (v.ok = false → ∃ i s field expected actual, kept[i]? = some s ∧
        (∀ j < i, ∀ t, kept[j]? = some t →
          AgreesOn x.params t (model j (nativeArgs x.params t.case))) ∧
        DiffersOn x.params s (model i (nativeArgs x.params s.case)) field expected actual ∧
        v.divergence = some (.obj [(py "input", preview F s.case), (py "field", .str field),
          (py "expected", .str expected), (py "actual", .str actual), (py "seed", x.seed)]) ∧
        v = fieldReject s field expected actual x.seed (i + 1) (x.nFuzz - kept.length)) := by
  have ha := paramsOf_accepted hps
  have hanswers : Answers x wants := ⟨hbatch, harity⟩
  obtain ⟨rfl, -⟩ := floors_ok.mp hfloors
  have hmain := workerMain_eq ha harity (fun s hs => (runnable_of_kept ha hanswers hs).tame) hbuild model
  have hvalidate := validate_workerOutput ha hvoid hanswers hfloors model hclean
    (Option.some.inj (hworker.symm.trans hmain))
  rcases compareCases_hostAnswers ha.nodup model x.seed
    (x.nFuzz - (survivors (x.round wants)).length) (fun s hs => hanswers.answered hs) 0 with
    ⟨hall, hok⟩ | ⟨i, s, field, expected, actual, hs, hbefore, hdiffers, hreject⟩
  · simp only [zero_add] at hall
    exact ⟨_, hvalidate.trans hok, iff_of_true rfl hall, fun hfalse => absurd hfalse (by simp)⟩
  · simp only [zero_add] at hbefore hdiffers hreject
    refine ⟨_, hvalidate.trans hreject, iff_of_false Bool.false_ne_true fun hall => ?_, fun _ =>
      ⟨i, s, field, expected, actual, hs, hbefore, hdiffers, rfl, rfl⟩⟩
    exact hdiffers.not_agrees (hall i s hs)

/-- A candidate that returns zero, and what the worker prints about it. -/
def zeroModel : Model := fun _ _ => .returned ⟨0, fun _ _ => 0, fun _ _ => 0⟩

def zeroBuild : Build ZeroFloat := fun _ _ => none

def zeroWorker : JobResult where
  returncode := 0
  timedOut := false
  truncated := false
  stdout := encode (dumps plain (workerOutput ZeroFloat zeroRound.params zeroModel zeroKept))
  stderr := []
  stdout_le := by decide +kernel
  stderr_lt := nil_stderr_lt
  returncode_lt := zero_returncode_lt

theorem honest_verdict_zero :
    ∃ v, validateFunction zeroRound (jobModel fun _ => zeroWorker) = some v ∧
      (v.ok = true ↔ ∀ i s, zeroKept[i]? = some s →
        AgreesOn zeroRound.params s (zeroModel i (nativeArgs zeroRound.params s.case))) ∧
      (v.ok = false → ∃ i s field expected actual, zeroKept[i]? = some s ∧
        (∀ j < i, ∀ t, zeroKept[j]? = some t →
          AgreesOn zeroRound.params t (zeroModel j (nativeArgs zeroRound.params t.case))) ∧
        DiffersOn zeroRound.params s (zeroModel i (nativeArgs zeroRound.params s.case)) field
          expected actual ∧
        v.divergence = some (.obj [(py "input", preview ZeroFloat s.case), (py "field", .str field),
          (py "expected", .str expected), (py "actual", .str actual), (py "seed", zeroRound.seed)]) ∧
        v = fieldReject s field expected actual zeroRound.seed (i + 1)
          (zeroRound.nFuzz - zeroKept.length)) := by
  have hanswers : Answers zeroRound zeroWants := ⟨batch_zeroRound, by decide⟩
  have hbuild : zeroBuild (joinPairs zeroRound.func) (joinPairs zeroRound.source) = none := rfl
  have hworker := workerMain_eq (F := ZeroFloat) accepted_zeroRound (by decide) (fun s hs =>
    (runnable_of_kept accepted_zeroRound hanswers hs).tame) hbuild zeroModel
  exact honest_verdict (paramsOf_dumps accepted_zeroRound) (by decide) (by decide) batch_zeroRound
    floors_zeroRound hbuild zeroModel ⟨rfl, rfl, rfl⟩ hworker

end ReSchema
