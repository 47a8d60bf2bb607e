/-
ReSchema/Survivors.lean

The cases of a round that the original survived.

Each of them has the return value of one call and all of the memory behind its
pointers (`Answered`, `lookup_readBack`).  `floors_ok` says when the checker
goes on to run the candidate on them.
-/
import ReSchema.Marshalling

namespace ReSchema

open Py

variable {F : Type}

/-! ### The round -/

theorem length_genInputs (stream : Stream) (ps : List Param) (k n : ℕ) :
    (genInputs stream ps k n).length = n := by
  induction n generalizing k with
  | zero => rfl
  | succ n ih => rw [genInputs, List.length_cons, ih]

theorem length_mergeScoutCases {α : Type} {uniform : List α} {n : ℕ} (h : uniform.length = n)
    (scout : List α) : (mergeScoutCases uniform scout n).length = n := by
  rw [mergeScoutCases, List.length_append, List.length_take, List.length_drop, h]
  omega

/-- **A round has `n_fuzz` cases.** -/
theorem FunctionRound.length_cases (x : FunctionRound F) : x.cases.length = x.nFuzz :=
  length_mergeScoutCases (by rw [List.length_map, length_genInputs]) _

/-! ### The original's answers -/

/-- The trace of a call that ended so. -/
def wantOf (F : Type) (ps : List Param) (case : Case) : CallOutcome → Want F
  | .raised memFault => .fault memFault
  | .stopped => .fault false
  | .returned final => .ran final.ret.toInt (readBack ps case final)

theorem runCase_eq_some {original : Original} {ps : List Param} {k : ℕ} {case : Case}
    {w : Want F} : runCase F original ps k case = some w ↔
      ∃ args, marshalCase ps case = some args ∧ w = wantOf F ps case (original k args) := by
  rw [runCase, Option.map_eq_some_iff]
  refine exists_congr fun args => and_congr_right fun _ => ?_
  rw [eq_comm (b := w)]
  rcases original k args with - | - | final <;> rfl

/-- Each case has the answer to one call. -/
theorem runCases_spec {original : Original} {ps : List Param} {k : ℕ} {cases : List Case}
    {ws : List (Want F)} (h : runCases F original ps k cases = some ws) :
    List.Forall₂ (fun case w => ∃ j args, marshalCase ps case = some args ∧
      w = wantOf F ps case (original j args)) cases ws := by
  induction cases generalizing k ws with
  | nil =>
      cases h
      exact .nil
  | cons c cs ih =>
      rw [runCases] at h
      obtain ⟨w, hw, h⟩ := Option.bind_eq_some_iff.mp h
      obtain ⟨us, hus, h⟩ := Option.bind_eq_some_iff.mp h
      cases h
      obtain ⟨args, hargs, hw⟩ := runCase_eq_some.mp hw
      exact .cons ⟨k, args, hargs, hw⟩ (ih hus)

/-- A survivor has what one call of the original left. -/
def Answered (original : Original) (ps : List Param) (s : Survivor F) : Prop :=
  ∃ j args final, marshalCase ps s.case = some args ∧ original j args = .returned final ∧
    s.ret = final.ret.toInt ∧ s.mem = readBack ps s.case final

theorem mem_survivors {round : List (RoundCase × Want F)} {s : Survivor F} :
    s ∈ survivors round ↔ (s.toRoundCase, Want.ran s.ret s.mem) ∈ round := by
  rw [survivors, List.mem_filterMap]
  constructor
  · rintro ⟨⟨c, w⟩, he, hs⟩
    cases w with
    | fault memFault => cases hs
    | ran ret mem =>
        cases hs
        exact he
  · exact fun he => ⟨_, he, rfl⟩

/-- The answers of a round, when every case could be marshalled. -/
structure Answers (x : FunctionRound F) (wants : List (Want F)) : Prop where
  batch : batchCallOriginal F x.original x.params (x.cases.map RoundCase.case) = some wants
  arity : x.params.length ≤ registerCount

theorem Answers.forall {x : FunctionRound F} {wants : List (Want F)} (h : Answers x wants) :
    List.Forall₂ (fun (c : RoundCase) w => ∃ j args, marshalCase x.params c.case = some args ∧
      w = wantOf F x.params c.case (x.original j args)) x.cases wants := by
  have hrun := h.batch
  rw [batchCallOriginal, if_neg (not_lt.mpr h.arity)] at hrun
  exact List.forall₂_map_left_iff.mp (runCases_spec hrun)

/-- The round with its answers. -/
def FunctionRound.round (x : FunctionRound F) (wants : List (Want F)) :
    List (RoundCase × Want F) := x.cases.zip wants

theorem Answers.length {x : FunctionRound F} {wants : List (Want F)} (h : Answers x wants) :
    (x.round wants).length = x.nFuzz := by
  rw [FunctionRound.round, List.length_zip, ← h.forall.length_eq, min_self, x.length_cases]

theorem Answers.answered {x : FunctionRound F} {wants : List (Want F)} (h : Answers x wants)
    {s : Survivor F} (hs : s ∈ survivors (x.round wants)) : Answered x.original x.params s := by
  obtain ⟨j, args, hargs, hw⟩ :=
    (List.forall₂_iff_zip.mp h.forall).2 (mem_survivors.mp hs)
  rcases ho : x.original j args with memFault | - | final
  · rw [ho] at hw
    cases hw
  · rw [ho] at hw
    cases hw
  · rw [ho] at hw
    obtain ⟨hret, hmem⟩ := Want.ran.inj hw
    exact ⟨j, args, final, hargs, ho, hret, hmem⟩

theorem length_survivors_le (round : List (RoundCase × Want F)) :
    (survivors round).length ≤ round.length := List.length_filterMap_le _ _

/-! ### Reading back -/

/-- What was marshalled into memory is read back. -/
theorem readItem_isSome {case : Case} {p : Param} (final : Final) (hkind : p.kind ≠ .i32)
    (h : ((case.lookup p.name).bind (marshal p.kind)).isSome = true) :
    (readItem (F := F) case final p).isSome = true := by
  rcases hl : case.lookup p.name with - | v
  · rw [hl] at h
    cases h
  · rw [hl, Option.bind_some] at h
    rcases hk : p.kind with - | - | -
    · exact absurd hk hkind
    · cases v with
      | bytes b => simp [hk, marshal] at h
      | int n => simp [readItem, hk, hl]
      | cells xs => simp [readItem, hk, hl]
    · cases v with
      | bytes b => simp [readItem, hk, hl]
      | int n => simp [hk, marshal] at h
      | cells xs => simp [hk, marshal] at h

theorem readItem_scalar {case : Case} {p : Param} (final : Final) (hkind : p.kind = .i32) :
    readItem (F := F) case final p = none := by
  rw [readItem, hkind]

/-- A buffer is read back as a list of numbers, and a string as bytes. -/
theorem readItem_shape {case : Case} {final : Final} {p : Param} {item : MemItem F}
    (h : readItem case final p = some item) :
    (p.kind = .bufferI32 ∧ ∃ xs, item = .json (cellsJson xs)) ∨
      (p.kind = .cstring ∧ ∃ b, item = .bytes b) := by
  rcases hl : case.lookup p.name with - | v
  · rcases hk : p.kind with - | - | - <;> simp [readItem, hk, hl] at h
  · rcases hk : p.kind with - | - | -
    · simp [readItem, hk] at h
    · left
      cases v with
      | bytes b => simp [readItem, hk, hl] at h
      | int n =>
          simp only [readItem, hk, hl, Option.some.injEq] at h
          exact ⟨rfl, _, h.symm⟩
      | cells xs =>
          simp only [readItem, hk, hl, Option.some.injEq] at h
          exact ⟨rfl, _, h.symm⟩
    · right
      cases v with
      | bytes b =>
          simp only [readItem, hk, hl, Option.some.injEq] at h
          exact ⟨rfl, _, h.symm⟩
      | int n => simp [readItem, hk, hl] at h
      | cells xs => simp [readItem, hk, hl] at h

/-- An entry that is read back is that of a parameter which is no scalar. -/
theorem exists_of_mem_readBack {ps : List Param} {case : Case} {final : Final} {name : PyStr}
    {item : MemItem F} (h : (name, item) ∈ readBack ps case final) :
    ∃ p ∈ ps, p.kind ≠ .i32 ∧ p.name = name ∧ readItem case final p = some item := by
  obtain ⟨p, hp, hread⟩ := List.mem_filterMap.mp h
  obtain ⟨item', hitem, hsame⟩ := Option.map_eq_some_iff.mp hread
  obtain ⟨hname, rfl⟩ := Prod.mk.inj hsame
  refine ⟨p, hp, fun hkind => ?_, hname, hitem⟩
  rw [readItem_scalar final hkind] at hitem
  cases hitem

/-- The memory has exactly the parameters that are no scalars, in their order. -/
theorem keys_readBack {ps : List Param} {case : Case} {args : List Arg}
    (h : marshalCase ps case = some args) (final : Final) :
    (readBack (F := F) ps case final).keys = (memoryParams ps).map Param.name := by
  have hsome := marshalCase_isSome.mp (Option.isSome_iff_exists.mpr ⟨args, h⟩)
  clear h
  induction ps with
  | nil => rfl
  | cons p ps ih =>
      obtain ⟨hp, hps⟩ := List.forall_mem_cons.mp hsome
      have htail := ih hps
      by_cases hkind : p.kind = .i32
      · have hfilter : memoryParams (p :: ps) = memoryParams ps := by simp [memoryParams, hkind]
        have hnone : readBack (F := F) (p :: ps) case final = readBack ps case final := by
          rw [readBack, List.filterMap_cons, readItem_scalar final hkind]
          rfl
        rw [hfilter, hnone, htail]
      · have hfilter : memoryParams (p :: ps) = p :: memoryParams ps := by
          simp [memoryParams, hkind]
        obtain ⟨item, hitem⟩ := Option.isSome_iff_exists.mp
          (readItem_isSome (F := F) final hkind hp)
        have hcons : readBack (F := F) (p :: ps) case final =
            (p.name, item) :: readBack ps case final := by
          rw [readBack, List.filterMap_cons, hitem]
          rfl
        rw [hfilter, hcons, List.map_cons, ← htail]
        rfl

theorem nodup_memoryParams {ps : List Param} (h : (ps.map Param.name).Nodup) :
    ((memoryParams ps).map Param.name).Nodup :=
  h.sublist (List.filter_sublist.map Param.name)

/-- **What is read back for a parameter.** -/
theorem lookup_readBack {ps : List Param} (hnodup : (ps.map Param.name).Nodup) {case : Case}
    {args : List Arg} (h : marshalCase ps case = some args) (final : Final) {p : Param}
    (hp : p ∈ ps) (hkind : p.kind ≠ .i32) :
    (readBack (F := F) ps case final).lookup p.name = readItem case final p := by
  have hsome := marshalCase_isSome.mp (Option.isSome_iff_exists.mpr ⟨args, h⟩) p hp
  obtain ⟨item, hitem⟩ := Option.isSome_iff_exists.mp (readItem_isSome (F := F) final hkind hsome)
  rw [hitem]
  refine Dict.lookup_eq_some_of_mem ?_ ?_
  · rw [keys_readBack h]
    exact nodup_memoryParams hnodup
  · exact List.mem_filterMap.mpr ⟨p, hp, by rw [hitem]; rfl⟩

/-! ### The floors -/

section Floors

variable [Runtime F]

/-- **When the candidate is run**: a case survived, no declared case faulted in memory, and two
declared cases that survived are distinct. -/
theorem floors_ok {n : ℕ} {seed : Json F} {round : List (RoundCase × Want F)}
    {kept : List (Survivor F)} : floors n seed round = .ok kept ↔ kept = survivors round ∧
      (∀ e ∈ round, e.1.declared = true → e.2.isMemFault = false) ∧
        2 ≤ (distinctTexts kept).length := by
  have hfaults : (round.filter fun e => e.1.declared && e.2.isMemFault) = [] ↔
      ∀ e ∈ round, e.1.declared = true → e.2.isMemFault = false := by
    rw [List.filter_eq_nil_iff]
    refine forall₂_congr fun e _ => ?_
    cases e.1.declared <;> simp
  -- the three floors in their order: a survivor, no declared memory fault, two distinct texts
  unfold floors
  by_cases hkept : survivors round = []
  · rw [if_pos hkept]
    refine iff_of_false (by rintro ⟨⟩) ?_
    rintro ⟨rfl, -, htwo⟩
    rw [hkept] at htwo
    simp [distinctTexts] at htwo
  · rw [if_neg hkept]
    rcases hf : (round.filter fun e => e.1.declared && e.2.isMemFault) with - | ⟨first, rest⟩
    · simp only [hf]
      have hnone := hfaults.mp hf
      by_cases htwo : (distinctTexts (survivors round)).length < 2
      · rw [if_pos htwo]
        refine iff_of_false (by rintro ⟨⟩) ?_
        rintro ⟨rfl, -, h⟩
        omega
      · rw [if_neg htwo, Except.ok.injEq]
        constructor
        · rintro rfl
          exact ⟨rfl, hnone, not_lt.mp htwo⟩
        · exact fun h => h.1.symm
    · simp only [hf]
      refine iff_of_false (by rintro ⟨⟩) fun h => ?_
      have := hfaults.mpr h.2.1
      rw [hf] at this
      cases this

/-- A round that shows too little is rejected with a text. -/
theorem floors_reject {n : ℕ} {seed : Json F} {round : List (RoundCase × Want F)}
    {v : FnVerdict F} (h : floors n seed round = .error v) : ∃ stage detail,
      v = stageReject stage detail [(py "seed", seed)]
        (round.length - (survivors round).length) := by
  unfold floors at h
  by_cases hkept : survivors round = []
  · rw [if_pos hkept] at h
    cases h
    exact ⟨_, _, rfl⟩
  · rw [if_neg hkept] at h
    rcases hf : (round.filter fun e => e.1.declared && e.2.isMemFault) with - | ⟨first, rest⟩
    · simp only [hf] at h
      split_ifs at h
      cases h
      exact ⟨_, _, rfl⟩
    · simp only [hf] at h
      cases h
      exact ⟨_, _, rfl⟩

theorem exists_pair_of_two_le {α : Type} {xs : List α} (hnodup : xs.Nodup) (h : 2 ≤ xs.length) :
    ∃ a ∈ xs, ∃ b ∈ xs, a ≠ b := by
  rcases xs with - | ⟨a, - | ⟨b, xs⟩⟩
  · simp at h
  · simp at h
  · refine ⟨a, List.mem_cons_self, b, List.mem_cons_of_mem _ List.mem_cons_self, ?_⟩
    rintro rfl
    exact (List.nodup_cons.mp hnodup).1 List.mem_cons_self

/-- Two texts come from two cases. -/
theorem length_distinctTexts_le (kept : List (Survivor F)) :
    (distinctTexts kept).length ≤ kept.length := by
  rw [distinctTexts]
  refine (List.dedup_sublist _).length_le.trans ?_
  rw [List.length_map]
  exact List.length_filter_le _ _

theorem exists_distinct {kept : List (Survivor F)} (h : 2 ≤ (distinctTexts kept).length) :
    ∃ s ∈ kept, ∃ t ∈ kept, s.declared = true ∧ t.declared = true ∧
      caseText F s.case ≠ caseText F t.case := by
  obtain ⟨a, ha, b, hb, hne⟩ := exists_pair_of_two_le (List.nodup_dedup _) h
  obtain ⟨s, hs, rfl⟩ := List.mem_map.mp (List.mem_dedup.mp ha)
  obtain ⟨t, ht, rfl⟩ := List.mem_map.mp (List.mem_dedup.mp hb)
  obtain ⟨hs, hsd⟩ := List.mem_filter.mp hs
  obtain ⟨ht, htd⟩ := List.mem_filter.mp ht
  exact ⟨s, hs, t, ht, hsd, htd, hne⟩

end Floors

end ReSchema
