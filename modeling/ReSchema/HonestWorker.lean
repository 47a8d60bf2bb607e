/-
ReSchema/HonestWorker.lean

What the worker prints on the job of a round.

The values of a case cross two encoders and two decoders on their way to the
candidate and back: the job is JSON with its strings in hex, the child writes
its answer as JSON into a pipe, and the parent prints all of them once more.
`loads_functionJob`, `readCase_wire` and `readChild_answer` say that nothing is
lost at any of these; `workerMain_eq` puts them together.  Up to the first
crash the worker reports each case (`answersFrom`).
-/
import ReSchema.RoundCases
import ReSchema.NativeWorker
import ReSchema.FunctionSound

namespace ReSchema

open Py

variable {F : Type}

/-! ### Cases on their way to the worker -/

theorem Tame.entry {ps : List Param} {case : Case} (h : Tame ps case) {e : PyStr × Value}
    (he : e ∈ case) : ∃ p ∈ ps, p.name = e.1 ∧ Sized p.kind e.2 := by
  obtain ⟨p, hp, hname⟩ := List.mem_map.mp ((h.keys e.1).mp (List.mem_map_of_mem he))
  obtain ⟨v, hv, hsized⟩ := h.values p hp
  have hlookup : case.lookup p.name = some e.2 :=
    Dict.lookup_eq_some_of_mem h.nodup (hname ▸ he)
  obtain rfl := Option.some.inj (hv.symm.trans hlookup)
  exact ⟨p, hp, hname, hsized⟩

theorem cellsJson_clean (xs : List ℤ) : (cellsJson xs : Json F).Clean :=
  cleanList_iff.mpr fun v hv => by
    obtain ⟨i, -, rfl⟩ := List.mem_map.mp hv
    trivial

theorem cellsJson_fits {xs : List ℤ} (h : ∀ x ∈ xs, x.natAbs < 2 ^ 33) {n : ℕ} (hn : 1 ≤ n) :
    (cellsJson xs : Json F).Fits n :=
  ⟨hn, fitsList_iff.mpr fun v hv => by
    obtain ⟨i, hi, rfl⟩ := List.mem_map.mp hv
    exact natAbs_lt_digits (h i hi)⟩

theorem joinPairs_name {ps : List Param} (h : Accepted ps) {p : Param} (hp : p ∈ ps) :
    joinPairs p.name = p.name := joinPairs_of_ascii (isName_printable (h.names p hp)).isAscii

/-- A case loses nothing in the text of the job. -/
theorem Tame.wire_clean {ps : List Param} {case : Case} (h : Tame ps case) (ha : Accepted ps) :
    (Json.obj (wire case) : Json F).Clean := by
  have hkeys : Dict.keys (wire (F := F) case) = Dict.keys case := by
    simp [wire, Dict.keys, Function.comp_def]
  refine ⟨hkeys ▸ h.nodup, cleanDict_iff.mpr fun e' he' => ?_⟩
  obtain ⟨e, he, rfl⟩ := List.mem_map.mp he'
  obtain ⟨p, hp, hname, hsized⟩ := h.entry he
  refine ⟨hname ▸ joinPairs_name ha hp, ?_⟩
  rcases e with ⟨k, i | b | xs⟩
  · trivial
  · exact joinPairs_of_ascii (printable_hex b).isAscii
  · exact cellsJson_clean xs

theorem Tame.wire_fits {ps : List Param} {case : Case} (h : Tame ps case) {n : ℕ} (hn : 2 ≤ n) :
    (Json.obj (wire case) : Json F).Fits n := by
  refine ⟨by omega, fitsDict_iff.mpr fun e' he' => ?_⟩
  obtain ⟨e, he, rfl⟩ := List.mem_map.mp he'
  obtain ⟨p, hp, hname, hsized⟩ := h.entry he
  rcases e with ⟨k, i | b | xs⟩
  · exact natAbs_lt_digits (sized_int.mp hsized).2
  · trivial
  · exact cellsJson_fits (sized_cells.mp hsized).2.2 (by omega)

section Transport

variable [Runtime F] [LawfulRuntime F]

/-- The round as the worker reads it: the surrogate pairs of its texts are joined. -/
def FunctionRound.received {F : Type} (x : FunctionRound F) : FunctionRound F :=
  { x with func := joinPairs x.func, source := joinPairs x.source }

/-- **The worker reads the job that was sent.** -/
theorem loads_functionJob {x : FunctionRound F} (ha : Accepted x.params)
    {kept : List (Survivor F)} (hkept : ∀ s ∈ kept, Tame x.params s.case) :
    loads (F := F) (encode (dumps plain (.obj (functionJob x kept)))) =
      some (.obj (functionJob x.received kept)) := by
  have hdepth := LawfulRuntime.maxDepth_le (F := F)
  have hparams : (Json.arr (x.params.map (Param.toJson (F := F)))).Clean :=
    cleanList_iff.mpr fun v hv => by
      obtain ⟨p, hp, rfl⟩ := List.mem_map.mp hv
      exact p.toJson_clean ha hp
  have hcases : (Json.arr (kept.map fun s => .obj (wire (F := F) s.case))).Clean :=
    cleanList_iff.mpr fun v hv => by
      obtain ⟨s, hs, rfl⟩ := List.mem_map.mp hv
      exact (hkept s hs).wire_clean ha
  have hfits : (Json.obj (functionJob x kept)).Fits (Runtime.maxDepth F) := by
    refine ⟨by omega, trivial, trivial, trivial, ⟨by omega, fitsList_iff.mpr ?_⟩,
      ⟨by omega, fitsList_iff.mpr ?_⟩, trivial⟩
    · intro v hv
      obtain ⟨p, hp, rfl⟩ := List.mem_map.mp hv
      exact p.toJson_fits ha hp (by omega)
    · intro v hv
      obtain ⟨s, hs, rfl⟩ := List.mem_map.mp hv
      exact (hkept s hs).wire_fits (by omega)
  rw [loads_dumps_joined plain_blank hfits]
  -- the keys are ASCII and the lists are clean, so only the two texts can change
  have hjoined : (Json.obj (functionJob x kept)).joined =
      .obj (functionJob x.received kept) := by
    have hpy : ∀ t ∈ ["mode", "c_source", "fname", "params", "cases", "validate"],
        joinPairs (py t) = py t := by
      simp only [List.forall_mem_cons]
      refine ⟨?_, ?_, ?_, ?_, ?_, ?_, by simp⟩ <;> exact joinPairs_py (by decide)
    simp only [List.forall_mem_cons] at hpy
    obtain ⟨h1, h2, h3, h4, h5, h6, -⟩ := hpy
    simp only [functionJob, Json.joined, joinedDict, h1, h2, h3, h4, h5, h6]
    have hp := hparams.joined_eq
    have hc := hcases.joined_eq
    simp only [Json.joined] at hp hc
    rw [hp, hc]
    rfl
  rw [hjoined]
  have hp := hparams.dedupe_eq
  have hc := hcases.dedupe_eq
  simp only [Json.dedupe] at hp hc
  have hdeduped : dedupeDict (functionJob x.received kept) = functionJob x.received kept := by
    simp only [functionJob, dedupeDict, Json.dedupe]
    have hsame : x.received.params = x.params := rfl
    rw [hsame, hp, hc]
  rw [Json.dedupe, hdeduped, Dict.update_nil]
  simp [functionJob, Dict.keys]

end Transport

/-! ### One call -/

/-- The values of a case in the order of the parameters. -/
def valued (ps : List Param) (case : Case) : List (Param × Value) :=
  ps.filterMap fun p => (case.lookup p.name).map fun v => (p, v)

/-- The argument that a value becomes. -/
def Value.native : Value → NativeArg
  | .int i => .int (BitVec.ofInt 32 i)
  | .bytes b => .string b
  | .cells xs => .cells (xs.map (BitVec.ofInt 32))

/-- The arguments of a case. -/
def nativeArgs (ps : List Param) (case : Case) : List NativeArg :=
  (valued ps case).map fun e => e.2.native

/-- The value of an argument as the worker reads it. -/
def Value.item {F : Type} : Value → MemItem F
  | .int i => .json (.int i)
  | .bytes b => .bytes b
  | .cells xs => .json (cellsJson xs)

/-- What was read back, on its way to the host. -/
def MemItem.report {F : Type} : MemItem F → Json F
  | .bytes b => .str (hex b)
  | .json v => v

/-- What the worker reports about the memory. -/
def reported (F : Type) (ps : List Param) (case : Case) (final : Final) : Dict (Json F) :=
  (readBack ps case final).map fun e => (e.1, e.2.report)

/-- The report of the worker on a call that ended so. -/
def answer (F : Type) (ps : List Param) (case : Case) : NativeOutcome → Json F
  | .signalled n => crashReport [(py "signal", .int n.val)]
  | .hung => crashReport [(py "timeout", .bool true)]
  | .exited => crashReport [(py "error", .str (py "no output"))]
  | .returned final =>
      .obj [(py "ret", .int final.ret.toInt), (py "mem", .obj (reported F ps case final))]

theorem Tame.valued {ps : List Param} {case : Case} (h : Tame ps case) :
    (valued ps case).map Prod.fst = ps ∧ ∀ e ∈ valued ps case,
      e.1 ∈ ps ∧ case.lookup e.1.name = some e.2 ∧ Sized e.1.kind e.2 := by
  constructor
  · have go : ∀ qs : List Param, (∀ q ∈ qs, q ∈ ps) →
        (ReSchema.valued qs case).map Prod.fst = qs := by
      intro qs
      induction qs with
      | nil => exact fun _ => rfl
      | cons q qs ih =>
          intro hsub
          obtain ⟨hq, hqs⟩ := List.forall_mem_cons.mp hsub
          obtain ⟨v, hv, -⟩ := h.values q hq
          have hcons : ReSchema.valued (q :: qs) case = (q, v) :: ReSchema.valued qs case := by
            rw [ReSchema.valued, List.filterMap_cons, hv]
            rfl
          rw [hcons, List.map_cons, ih hqs]
    exact go ps fun _ hq => hq
  · intro e he
    obtain ⟨p, hp, hmap⟩ := List.mem_filterMap.mp he
    obtain ⟨v, hv, rfl⟩ := Option.map_eq_some_iff.mp hmap
    obtain ⟨w, hw, hsized⟩ := h.values p hp
    obtain rfl := Option.some.inj (hv.symm.trans hw)
    exact ⟨hp, hv, hsized⟩

theorem lookup_wire {case : Case} {k : PyStr} {v : Value} (h : case.lookup k = some v) :
    (wire (F := F) case).lookup k = some v.wire := by
  induction case with
  | nil => cases h
  | cons e case ih =>
      rw [wire, List.map_cons, List.lookup_cons]
      rw [List.lookup_cons] at h
      cases hk : k == e.1 with
      | true =>
          simp only [hk, Option.some.injEq] at h ⊢
          rw [h]
      | false =>
          simp only [hk] at h ⊢
          exact ih h

/-- **The worker reads the values that were sent.** -/
theorem readCase_wire [Runtime F] {ps : List Param} {case : Case} (h : Tame ps case) :
    readCase (ps.map Param.raw) (.obj (wire case)) =
      some ((valued ps case).map fun e => (e.1.name, e.2.item (F := F))) := by
  obtain ⟨hps, hvalues⟩ := h.valued
  rw [readCase]
  conv_lhs => rw [← hps]
  rw [mapM_some, List.map_map, List.forall₂_map_left_iff, List.forall₂_map_right_iff,
    List.forall₂_same]
  rintro ⟨p, v⟩ he
  obtain ⟨-, hlookup, hsized⟩ := hvalues _ he
  have hv := lookup_wire (F := F) hlookup
  have hname : (p.raw : RawParam F).name.str? = some p.name := rfl
  have hget : (Json.obj (wire (F := F) case)).get? p.name = some v.wire := hv
  have hkind : (p.raw : RawParam F).kind = p.kind := rfl
  simp only [Function.comp_apply, hname, hget, hkind, Option.bind_eq_bind, Option.bind_some,
    Option.pure_def]
  cases v with
  | int i =>
      rw [(sized_int.mp hsized).1]
      rfl
  | bytes b =>
      rw [(sized_bytes.mp hsized).1]
      simp [Value.wire, Value.item, Json.str?]
  | cells xs =>
      rw [(sized_cells.mp hsized).1]
      rfl

theorem nativeArg_item {p : Param} {v : Value} (h : Sized p.kind v) :
    nativeArg p.kind (v.item (F := F)) = some v.native := by
  cases v with
  | int i =>
      rw [(sized_int.mp h).1]
      rfl
  | bytes b =>
      rw [(sized_bytes.mp h).1]
      rfl
  | cells xs =>
      rw [(sized_cells.mp h).1]
      have hints : (xs.map (Json.int (F := F))).mapM Json.int? = some xs := by
        rw [mapM_some, List.forall₂_map_left_iff, List.forall₂_same]
        exact fun x _ => rfl
      simp only [Value.item, cellsJson, nativeArg, hints, Option.map_some]
      rfl

/-- What the worker watches is what the original's memory is read back by. -/
theorem watchedItem_native {case : Case} {p : Param} {v : Value} (final : Final)
    (hv : case.lookup p.name = some v) (h : Sized p.kind v) :
    watchedItem (F := F) final p.name v.native = (readItem case final p).map MemItem.report := by
  cases v with
  | int i =>
      rw [readItem_scalar final (sized_int.mp h).1]
      rfl
  | bytes b =>
      rw [readItem, (sized_bytes.mp h).1, hv]
      rfl
  | cells xs =>
      rw [readItem, (sized_cells.mp h).1, hv]
      simp only [Value.native, watchedItem, List.length_map, Option.map_some]
      rfl

/-- **The output of a call that returned.** -/
theorem callOutput_native {ps : List Param} {case : Case} (h : Tame ps case) (final : Final) :
    callOutput ((valued ps case).map fun e => (e.1.name, e.2.native)) final =
      answer F ps case (.returned final) := by
  obtain ⟨hps, hvalues⟩ := h.valued
  have hmem : ((valued ps case).map fun e => (e.1.name, e.2.native)).filterMap (fun a =>
      (watchedItem (F := F) final a.1 a.2).map fun v => (a.1, v)) = reported F ps case final := by
    rw [reported, readBack]
    conv_rhs => rw [← hps]
    rw [List.filterMap_map, List.filterMap_map, List.map_filterMap]
    refine List.filterMap_congr fun e he => ?_
    obtain ⟨-, hlookup, hsized⟩ := hvalues e he
    simp only [Function.comp_apply, watchedItem_native final hlookup hsized, Option.map_map]
    rfl
  rw [callOutput, hmem, answer]

/-! ### What the child writes -/

/-- What is read back for a parameter, when the case is tame: a few cells, or a short string. -/
theorem readItem_small {case : Case} {p : Param} {v : Value} {final : Final} {item : MemItem F}
    (hv : case.lookup p.name = some v) (hsized : Sized p.kind v)
    (h : readItem case final p = some item) :
    (∃ xs : List (BitVec 32), xs.length ≤ 32 ∧ item = .json (cellsJson (xs.map BitVec.toInt))) ∨
      ∃ b : Bytes, b.length ≤ 17 ∧ item = .bytes b := by
  cases v with
  | int i =>
      rw [readItem_scalar final (sized_int.mp hsized).1] at h
      cases h
  | bytes b =>
      obtain ⟨hk, hlen⟩ := sized_bytes.mp hsized
      rw [readItem, hk, hv] at h
      right
      exact ⟨_, by rwa [List.length_map, List.length_range], (Option.some.inj h).symm⟩
  | cells xs =>
      obtain ⟨hk, hlen, -⟩ := sized_cells.mp hsized
      rw [readItem, hk, hv] at h
      left
      refine ⟨(List.range xs.length).map (final.cells p.name), by
        rwa [List.length_map, List.length_range], ?_⟩
      rw [List.map_map]
      exact (Option.some.inj h).symm

/-- The entries that are read back. -/
theorem mem_readBack {ps : List Param} {case : Case} (h : Tame ps case) {final : Final}
    {e : PyStr × MemItem F} (he : e ∈ readBack ps case final) :
    ∃ p ∈ ps, p.name = e.1 ∧
      ((∃ xs : List (BitVec 32), xs.length ≤ 32 ∧ e.2 = .json (cellsJson (xs.map BitVec.toInt))) ∨
        ∃ b : Bytes, b.length ≤ 17 ∧ e.2 = .bytes b) := by
  obtain ⟨name, item⟩ := e
  obtain ⟨p, hp, -, rfl, hread⟩ := exists_of_mem_readBack he
  obtain ⟨v, hv, hsized⟩ := h.values p hp
  exact ⟨p, hp, rfl, readItem_small hv hsized hread⟩

theorem natAbs_toInt_lt (b : BitVec 32) : b.toInt.natAbs < 2 ^ 33 := by
  have := BitVec.toInt_lt (x := b)
  have := BitVec.le_toInt (x := b)
  omega

theorem nodup_readBack {ps : List Param} (ha : Accepted ps) (case : Case) (final : Final) :
    (readBack (F := F) ps case final).keys.Nodup := by
  have hsub : ∀ qs : List Param,
      (Dict.keys (readBack (F := F) qs case final)).Sublist (qs.map Param.name) := by
    intro qs
    induction qs with
    | nil => exact .slnil
    | cons q qs ih =>
        rcases hq : readItem (F := F) case final q with - | item
        · rw [readBack, List.filterMap_cons, hq]
          exact ih.cons _
        · rw [readBack, List.filterMap_cons, hq]
          exact ih.cons_cons _
  exact ha.nodup.sublist (hsub ps)

/-- A report is short, and loses nothing in its text. -/
theorem report_spec [Runtime F] {item : MemItem F}
    (h : (∃ xs : List (BitVec 32), xs.length ≤ 32 ∧ item = .json (cellsJson (xs.map BitVec.toInt))) ∨
      ∃ b : Bytes, b.length ≤ 17 ∧ item = .bytes b) :
    item.report.Clean ∧ (∀ n, 1 ≤ n → item.report.Fits n) ∧
      ∀ lvl, (render plain lvl item.report).length ≤ 500 := by
  rcases h with ⟨xs, hlen, rfl⟩ | ⟨b, hlen, rfl⟩
  · have hsmall : ∀ x ∈ xs.map BitVec.toInt, x.natAbs < 2 ^ 33 := by
      intro x hx
      obtain ⟨b, -, rfl⟩ := List.mem_map.mp hx
      exact natAbs_toInt_lt b
    refine ⟨cellsJson_clean _, fun n hn => cellsJson_fits hsmall hn, fun lvl => ?_⟩
    refine (length_render_arr_le plain lvl _).trans ?_
    -- ten digits and a sign, a comma and a blank
    have hcell : ∀ k ∈ ((xs.map BitVec.toInt).map (Json.int (F := F))).map fun x =>
        1 + plain.itemPad.length + (plain.newline (lvl + 1)).length +
          (render plain (lvl + 1) x).length, k ≤ 13 := by
      intro k hk
      obtain ⟨v, hv, rfl⟩ := List.mem_map.mp hk
      obtain ⟨i, hi, rfl⟩ := List.mem_map.mp hv
      have hdigits := length_intText_le (k := 10) (by decide)
        ((hsmall i hi).trans (by decide : 2 ^ 33 < 10 ^ 10))
      rw [length_itemPad_plain, length_newline_plain, render]
      omega
    have hsum := List.sum_le_card_nsmul _ 13 hcell
    rw [List.length_map, List.length_map, List.length_map, smul_eq_mul] at hsum
    rw [length_newline_plain]
    omega
  · refine ⟨joinPairs_of_ascii (printable_hex b).isAscii, fun _ _ => trivial, fun lvl => ?_⟩
    have hquote := length_quote_le (hex b)
    rw [length_hex] at hquote
    rw [MemItem.report, render]
    omega

theorem length_name_le {s : PyStr} (h : isName s = true) : s.length ≤ 64 := by
  cases s with
  | nil => simp
  | cons c r =>
      simp only [isName, Bool.and_eq_true, decide_eq_true_eq] at h
      rw [List.length_cons]
      omega

section Answers

variable {ps : List Param} {case : Case}

theorem keys_reported (final : Final) :
    Dict.keys (reported F ps case final) = Dict.keys (readBack (F := F) ps case final) := by
  simp [reported, Dict.keys, Function.comp_def]

variable [Runtime F]

theorem answer_clean (ha : Accepted ps) (h : Tame ps case) (final : Final) :
    (answer F ps case (.returned final)).Clean := by
  have hret : joinPairs (py "ret") = py "ret" := joinPairs_py (by decide)
  have hmem : joinPairs (py "mem") = py "mem" := joinPairs_py (by decide)
  have hreported : (Json.obj (reported F ps case final)).Clean := by
    refine ⟨?_, cleanDict_iff.mpr fun e' he' => ?_⟩
    · rw [keys_reported]
      exact nodup_readBack ha case final
    · obtain ⟨e, he, rfl⟩ := List.mem_map.mp he'
      obtain ⟨p, hp, hname, hitem⟩ := mem_readBack h he
      exact ⟨hname ▸ joinPairs_name ha hp, (report_spec hitem).1⟩
  exact ⟨by simp [Dict.keys], ⟨hret, trivial⟩, ⟨hmem, hreported⟩, trivial⟩

theorem answer_fits (h : Tame ps case) (final : Final) {n : ℕ} (hn : 3 ≤ n) :
    (answer F ps case (.returned final)).Fits n := by
  have hreported : (Json.obj (reported F ps case final)).Fits (n - 1) := by
    refine ⟨by omega, fitsDict_iff.mpr fun e' he' => ?_⟩
    obtain ⟨e, he, rfl⟩ := List.mem_map.mp he'
    obtain ⟨p, hp, hname, hitem⟩ := mem_readBack h he
    exact (report_spec hitem).2.1 _ (by omega)
  exact ⟨by omega, natAbs_lt_digits (natAbs_toInt_lt _), hreported, trivial⟩

/-- A name is quoted as it stands. -/
theorem length_quote_name {s : PyStr} (h : isName s = true) : (quote s).length ≤ 66 := by
  have hraw : ∀ c ∈ s, escapeChar c = [c] := by
    intro c hc
    exact escapeChar_of_isNameChar (isNameChar_of_mem h hc)
  rw [length_quote_raw hraw]
  exact Nat.add_le_add_right (length_name_le h) 2

/-- **An answer fits the pipe.** -/
theorem length_answer_le (ha : Accepted ps) (harity : ps.length ≤ registerCount)
    (h : Tame ps case) (final : Final) (lvl : ℕ) :
    (render plain lvl (answer F ps case (.returned final))).length ≤ 3600 := by
  -- a short name and a short report for each parameter that is read back
  have hentry : ∀ k ∈ (reported F ps case final).map (entryRoom plain (lvl + 1 + 1)),
      k ≤ 570 := by
    intro k hk
    obtain ⟨e', he', rfl⟩ := List.mem_map.mp hk
    obtain ⟨e, he, rfl⟩ := List.mem_map.mp he'
    obtain ⟨p, hp, hname, hitem⟩ := mem_readBack h he
    have hquote := length_quote_name (ha.names p hp)
    have hreport := (report_spec hitem).2.2 (lvl + 1 + 1)
    rw [hname] at hquote
    rw [entryRoom, length_itemPad_plain, length_keyPad_plain, length_newline_plain]
    dsimp only
    omega
  have hcount : (reported F ps case final).length ≤ 6 := by
    rw [reported, List.length_map]
    exact (List.length_filterMap_le _ _).trans harity
  have hmem := length_render_obj_le plain (lvl + 1) (reported F ps case final)
  have hsum := List.sum_le_card_nsmul _ 570 hentry
  rw [List.length_map, smul_eq_mul] at hsum
  rw [length_newline_plain] at hmem
  have hdigits := length_intText_le (k := 10) (by decide)
    ((natAbs_toInt_lt final.ret).trans (by decide : 2 ^ 33 < 10 ^ 10))
  have hret := length_quote_le (py "ret")
  have hmemKey := length_quote_le (py "mem")
  have h3 : (py "ret").length = 3 := rfl
  have h3' : (py "mem").length = 3 := rfl
  refine (length_render_obj_le plain lvl _).trans ?_
  simp only [List.map_cons, List.map_nil, List.sum_cons, List.sum_nil, entryRoom,
    length_itemPad_plain, length_keyPad_plain, length_newline_plain]
  rw [render]
  omega

/-- **The parent reads what the child wrote.** -/
theorem readChild_answer [LawfulRuntime F] (ha : Accepted ps) (harity : ps.length ≤ registerCount)
    (h : Tame ps case) (final : Final) :
    readChild (encode (dumps plain (answer F ps case (.returned final)))) =
      answer F ps case (.returned final) := by
  have hdepth := LawfulRuntime.maxDepth_le (F := F)
  have hascii : IsAscii (dumps plain (answer F ps case (.returned final))) :=
    isAscii_render plain_blank _ 0
  have hlen : (encode (dumps plain (answer F ps case (.returned final)))).length ≤ 3600 := by
    rw [encode_ascii hascii, List.length_map]
    exact length_answer_le ha harity h final 0
  have hread := loads_dumps plain_blank (answer_fits (F := F) h final (n := Runtime.maxDepth F)
    (by omega)) (answer_clean ha h final)
  have htake : (encode (dumps plain (answer F ps case (.returned final)))).take pipeRead =
      encode (dumps plain (answer F ps case (.returned final))) :=
    List.take_of_length_le (hlen.trans (by decide))
  have hne : encode (dumps plain (answer F ps case (.returned final))) ≠ [] := by
    rw [encode_ascii hascii]
    simp [answer, dumps, render]
  rw [readChild, if_neg hne, htake, hread]

omit [Runtime F] in
/-- The child gets the values of the case for its arguments. -/
theorem nativeArg_items (h : Tame ps case) :
    (((ps.map (Param.raw (F := F))).zip ((valued ps case).map fun e =>
      (e.1.name, e.2.item (F := F)))).mapM fun pe =>
      (nativeArg pe.1.kind pe.2.2).map fun a => (pe.2.1, a)) =
      some ((valued ps case).map fun e => (e.1.name, e.2.native)) := by
  obtain ⟨hps, hvalues⟩ := h.valued
  have hraw : ps.map (Param.raw (F := F)) = (valued ps case).map fun e => e.1.raw := by
    conv_lhs => rw [← hps]
    rw [List.map_map]
    rfl
  rw [hraw, List.zip_map', mapM_some, List.forall₂_map_left_iff,
    List.forall₂_map_right_iff, List.forall₂_same]
  intro e he
  obtain ⟨-, -, hsized⟩ := hvalues e he
  have hkind : (e.1.raw : RawParam F).kind = e.1.kind := rfl
  simp only [hkind, nativeArg_item hsized, Option.map_some]

/-- **One call of the worker.** -/
theorem runNative_eq [LawfulRuntime F] (ha : Accepted ps) (harity : ps.length ≤ registerCount)
    (h : Tame ps case) (model : Model) (k : ℕ) : runNative model (ps.map Param.raw) k
      ((valued ps case).map fun e => (e.1.name, e.2.item (F := F))) =
      answer F ps case (model k (nativeArgs ps case)) := by
  have hvals : ((valued ps case).map fun e => (e.1.name, e.2.native)).map Prod.snd =
      nativeArgs ps case := by
    rw [List.map_map]
    rfl
  simp only [runNative, nativeArg_items h, hvals]
  rcases model k (nativeArgs ps case) with n | - | - | final
  · rfl
  · rfl
  · rfl
  · simp only [callOutput_native h final]
    exact readChild_answer ha harity h final

end Answers

/-! ### The output of the worker -/

/-- The crash that an outcome is. -/
def crashOf (F : Type) : NativeOutcome → Option (Json F)
  | .signalled n => some (.obj [(py "signal", .int n.val)])
  | .hung => some (.obj [(py "timeout", .bool true)])
  | .exited => some (.obj [(py "error", .str (py "no output"))])
  | .returned _ => none

theorem answer_of_crash {o : NativeOutcome} {c : Json F} (h : crashOf F o = some c)
    (ps : List Param) (case : Case) : answer F ps case o = .obj [(py "crash", c)] := by
  cases o <;> cases h <;> rfl

/-- An outcome is a crash, or there is a result. -/
theorem crashOf_cases (F : Type) (o : NativeOutcome) :
    (∃ c, crashOf F o = some c) ∨ ∃ final, o = .returned final := by
  cases o with
  | returned final => exact .inr ⟨final, rfl⟩
  | _ => exact .inl ⟨_, rfl⟩

/-- The answers of the worker, from the `k`-th call on: up to the first crash. -/
def answersFrom (F : Type) (ps : List Param) (model : Model) : ℕ → List (Survivor F) → List (Json F)
  | _, [] => []
  | k, s :: kept =>
      let o := model k (nativeArgs ps s.case)
      answer F ps s.case o ::
        if (crashOf F o).isSome then [] else answersFrom F ps model (k + 1) kept

/-- A case that the original survived is tame, and could be marshalled. -/
structure Runnable (ps : List Param) (s : Survivor F) : Prop where
  tame : Tame ps s.case
  marshalled : (marshalCase ps s.case).isSome = true

section Output

variable [Runtime F]

theorem contains_answer (ps : List Param) (case : Case) (o : NativeOutcome) :
    contains (py "crash") (answer F ps case o) = some (crashOf F o).isSome := by
  cases o <;> simp [answer, crashReport, crashOf, contains, Dict.keys]

variable [LawfulRuntime F] {ps : List Param}

/-- **The loop of the worker.** -/
theorem runNatives_eq (ha : Accepted ps) (harity : ps.length ≤ registerCount) (model : Model)
    {kept : List (Survivor F)} (hkept : ∀ s ∈ kept, Tame ps s.case) (k : ℕ) :
    runNatives model (ps.map Param.raw) k (kept.map fun s =>
      (valued ps s.case).map fun e => (e.1.name, e.2.item (F := F))) =
      some (answersFrom F ps model k kept) := by
  induction kept generalizing k with
  | nil => rfl
  | cons s kept ih =>
      obtain ⟨hs, hkept⟩ := List.forall_mem_cons.mp hkept
      have hrun := runNative_eq (F := F) ha harity hs model k
      rw [List.map_cons, runNatives, hrun, contains_answer, ih hkept, answersFrom]
      rcases hc : crashOf F (model k (nativeArgs ps s.case)) with - | c <;> rfl

omit [LawfulRuntime F] in
/-- A report loses nothing in its text. -/
theorem answer_text (ha : Accepted ps) {case : Case} (h : Tame ps case) (o : NativeOutcome) :
    (answer F ps case o).Clean ∧ ∀ n, 3 ≤ n → (answer F ps case o).Fits n := by
  have hkey : ∀ t ∈ ["crash", "signal", "timeout", "error", "no output"],
      joinPairs (py t) = py t := by
    simp only [List.forall_mem_cons]
    refine ⟨?_, ?_, ?_, ?_, ?_, by simp⟩ <;> exact joinPairs_py (by decide)
  simp only [List.forall_mem_cons] at hkey
  obtain ⟨h1, h2, h3, h4, h5, -⟩ := hkey
  cases o with
  | signalled n =>
      have hn : (n.val : ℤ).natAbs < 2 ^ 33 := by
        have := n.isLt
        omega
      exact ⟨⟨by simp [Dict.keys], ⟨h1, ⟨by simp [Dict.keys], ⟨h2, trivial⟩, trivial⟩⟩, trivial⟩,
        fun n _ => ⟨by omega, ⟨by omega, natAbs_lt_digits hn, trivial⟩, trivial⟩⟩
  | hung => exact ⟨⟨by simp [Dict.keys], ⟨h1, ⟨by simp [Dict.keys], ⟨h3, trivial⟩, trivial⟩⟩,
      trivial⟩, fun n _ => ⟨by omega, ⟨by omega, trivial, trivial⟩, trivial⟩⟩
  | exited => exact ⟨⟨by simp [Dict.keys], ⟨h1, ⟨by simp [Dict.keys], ⟨h4, h5⟩, trivial⟩⟩,
      trivial⟩, fun n _ => ⟨by omega, ⟨by omega, trivial, trivial⟩, trivial⟩⟩
  | returned final =>
      exact ⟨answer_clean ha h final, fun _ hn => answer_fits h final hn⟩

omit [Runtime F] [LawfulRuntime F] in
theorem mem_answersFrom {model : Model} {k : ℕ} {kept : List (Survivor F)} {v : Json F}
    (h : v ∈ answersFrom F ps model k kept) : ∃ s ∈ kept, ∃ o, v = answer F ps s.case o := by
  induction kept generalizing k with
  | nil => exact absurd h List.not_mem_nil
  | cons s kept ih =>
      rw [answersFrom] at h
      rcases List.mem_cons.mp h with rfl | h
      · exact ⟨s, List.mem_cons_self, _, rfl⟩
      · split_ifs at h
        · exact absurd h List.not_mem_nil
        · obtain ⟨t, ht, o, rfl⟩ := ih h
          exact ⟨t, List.mem_cons_of_mem _ ht, o, rfl⟩

/-- What the worker prints. -/
def workerOutput (F : Type) (ps : List Param) (model : Model) (kept : List (Survivor F)) : Json F :=
  .obj [(py "ok", .bool true), (py "results", .arr (answersFrom F ps model 0 kept))]

/-- **The worker on the job of a round.** -/
theorem workerMain_eq {x : FunctionRound F} (ha : Accepted x.params)
    (harity : x.params.length ≤ registerCount) {kept : List (Survivor F)}
    (hkept : ∀ s ∈ kept, Tame x.params s.case) {build : Build F}
    (hbuild : build (joinPairs x.func) (joinPairs x.source) = none) (model : Model) :
    workerMain build model (sentJob x kept).stdin =
      some (encode (dumps plain (workerOutput F x.params model kept))) := by
  have hread := loads_functionJob ha hkept
  obtain ⟨hlMode, hlSource, hlFunc, hlParams, hlCases⟩ := lookup_functionJob x.received kept
  obtain ⟨hobj, hraw⟩ := readParams_functionJob (F := F) x.params
  have hcases : (kept.map fun s => Json.obj (wire (F := F) s.case)).mapM
      (readCase (x.params.map Param.raw)) = some (kept.map fun s =>
        (valued x.params s.case).map fun e => (e.1.name, e.2.item (F := F))) := by
    rw [mapM_some, List.forall₂_map_left_iff, List.forall₂_map_right_iff, List.forall₂_same]
    exact fun s hs => readCase_wire (hkept s hs)
  have hrun := runNatives_eq (F := F) ha harity model hkept 0
  have hmode : pyEq (F := F) (.str (py "validate")) (.str (py "validate")) = true := pyEq_str.mpr rfl
  have hvalidate : workerValidate build model (functionJob x.received kept) =
      some [(py "ok", .bool true), (py "results", .arr (answersFrom F x.params model 0 kept))] := by
    have hsame : x.received.params = x.params := rfl
    have hfunc : x.received.func = joinPairs x.func := rfl
    have hsource : x.received.source = joinPairs x.source := rfl
    simp only [workerValidate, hlParams, hlFunc, hlSource, hlCases, hsame, hfunc, hsource,
      Option.bind_eq_bind, Option.bind_some, Json.arr?, Json.str?, hobj, hraw, Except.toOption,
      hbuild, hcases, hrun]
    rfl
  rw [workerMain, sentJob, hread]
  simp only [Option.bind_eq_bind, Option.bind_some, Json.obj?, hvalidate, hlMode, hmode, if_true]
  rfl

/-- **The host reads what the worker printed.** -/
theorem loads_workerOutput {x : FunctionRound F} (ha : Accepted x.params)
    {kept : List (Survivor F)} (hkept : ∀ s ∈ kept, Tame x.params s.case) (model : Model) :
    loads (F := F) (encode (dumps plain (workerOutput F x.params model kept))) =
      some (workerOutput F x.params model kept) := by
  have hdepth := LawfulRuntime.maxDepth_le (F := F)
  have hok : joinPairs (py "ok") = py "ok" := joinPairs_py (by decide)
  have hresults : joinPairs (py "results") = py "results" := joinPairs_py (by decide)
  have hanswer : ∀ v ∈ answersFrom F x.params model 0 kept,
      v.Clean ∧ ∀ n, 3 ≤ n → v.Fits n := by
    intro v hv
    obtain ⟨s, hs, o, rfl⟩ := mem_answersFrom hv
    exact answer_text ha (hkept s hs) o
  refine loads_dumps plain_blank ?_ ?_
  · refine ⟨by omega, trivial, ⟨by omega, fitsList_iff.mpr fun v hv => ?_⟩, trivial⟩
    exact (hanswer v hv).2 _ (by omega)
  · exact ⟨by simp [Dict.keys], ⟨hok, trivial⟩,
      ⟨hresults, cleanList_iff.mpr fun v hv => (hanswer v hv).1⟩, trivial⟩

end Output

end ReSchema
