/-
ReSchema/VoidFloor.lean

When a function without a result can pass on nothing.

Of such a function only the memory is compared, so the checker asks for a
parameter that has some.  But a buffer whose length is declared to be zero or
less is drawn empty, and two cases that differ in a scalar are distinct inputs
all the same: a round of these compares empty buffers with empty buffers, and a
candidate that writes nothing passes.  `Evadable` says which declarations admit
it, and `neverVacuous_iff` that there are no others.
-/
import ReSchema.WorkerOutput

namespace ReSchema

open Py

variable {F : Type}

/-! ### What is observed -/

/-- Memory in which there is something: a string, or a buffer with a cell. -/
def MemItem.observed : MemItem F → Bool
  | .bytes _ => true
  | .json (.arr []) => false
  | .json _ => true

/-- A case in which some memory is observed. -/
def Observes (s : Survivor F) : Prop := ∃ e ∈ s.mem, e.2.observed = true

/-- No round of so many cases for the declaration passes without a case in which some memory is
observed. -/
def NeverVacuous (F : Type) [Runtime F] (ps : List Param) (n : ℕ) : Prop :=
  ∀ x : FunctionRound F, x.params = ps → x.nFuzz = n → ∀ (runJob : WorkerJob → JobResult) v,
    validateFunction x (jobModel runJob) = some v → v.ok = true → ∀ wants,
    batchCallOriginal F x.original x.params (x.cases.map RoundCase.case) = some wants →
      ∃ s ∈ survivors (x.round wants), Observes s

/-- A scalar that sizes a buffer. -/
def SizesBuffer (ps : List Param) (q : Param) : Prop :=
  ∃ p ∈ ps, p.kind = .bufferI32 ∧ p.lengthParam = some q.name

/-- A declaration that can be drawn without any memory and still in two ways. -/
structure Evadable (ps : List Param) (n : ℕ) : Prop where
  two : 2 ≤ n
  arity : ps.length ≤ registerCount
  buffer : ∃ p ∈ ps, p.kind = .bufferI32
  noString : ∀ p ∈ ps, p.kind ≠ .cstring
  empty : ∀ p ∈ ps, p.kind = .bufferI32 →
    ∃ q ∈ ps, q.kind = .i32 ∧ p.lengthParam = some q.name ∧ q.lo ≤ 0
  varies : ∃ q ∈ ps, q.kind = .i32 ∧ q.lo < q.hi ∧ (SizesBuffer ps q → q.lo < 0)

/-! ### Cases without memory -/

section Cases

variable {ps : List Param} {case : Case}

/-- A case whose buffers are all empty, and that has no string. -/
def Bare (ps : List Param) (case : Case) : Prop :=
  ∀ p ∈ ps, p.kind ≠ .i32 → case.lookup p.name = some (.cells [])

theorem not_observes_iff (ha : Accepted ps) (ht : Tame ps case) {args : List Arg}
    (hargs : marshalCase ps case = some args) {final : Final} {s : Survivor F}
    (hmem : s.mem = readBack ps case final) : ¬Observes s ↔ Bare ps case := by
  constructor
  · intro hnone p hp hkind
    obtain ⟨v, hv, hsized⟩ := ht.values p hp
    have hlookup := lookup_readBack (F := F) ha.nodup hargs final hp hkind
    -- a string is always something to see, a buffer only with cells
    cases v with
    | int i => exact absurd (sized_int.mp hsized).1 hkind
    | bytes b =>
        refine absurd ⟨(p.name, .bytes ((List.range b.length).map (final.chars p.name))), ?_, rfl⟩
          hnone
        rw [hmem]
        refine Dict.mem_of_lookup_eq_some (hlookup.trans ?_)
        rw [readItem, (sized_bytes.mp hsized).1, hv]
    | cells xs =>
        cases xs with
        | nil => exact hv
        | cons y xs =>
            refine absurd ⟨(p.name, .json (cellsJson ((List.range (y :: xs).length).map fun i =>
              (final.cells p.name i).toInt))), ?_, ?_⟩ hnone
            · rw [hmem]
              refine Dict.mem_of_lookup_eq_some (hlookup.trans ?_)
              rw [readItem, (sized_cells.mp hsized).1, hv]
            · rw [List.length_cons, List.range_succ_eq_map]
              rfl
  · rintro hbare ⟨⟨name, item⟩, he, hobserved⟩
    rw [hmem] at he
    obtain ⟨p, hp, hkind, rfl, hitem⟩ := exists_of_mem_readBack he
    rw [readItem, hbare p hp hkind] at hitem
    rcases hk : p.kind with - | - | -
    · exact hkind hk
    · simp only [hk, Option.some.injEq] at hitem
      subst hitem
      cases hobserved
    · simp [hk] at hitem

/-- **A drawn buffer is empty** exactly when a scalar that is zero or less sizes it. -/
theorem Drawn.empty_iff (d : Drawn ps case) (ha : Accepted ps) {p : Param} (hp : p ∈ ps)
    (hkind : p.kind = .bufferI32) : case.lookup p.name = some (.cells []) ↔
      ∃ q ∈ ps, q.kind = .i32 ∧ p.lengthParam = some q.name ∧
        ∃ i, case.lookup q.name = some (.int i) ∧ i ≤ 0 := by
  obtain ⟨v, hv, hdrawn⟩ := d.lookup_memory ha hp (by rw [hkind]; decide)
  cases v with
  | int i => exact hdrawn.elim
  | bytes b =>
      obtain ⟨hk, -⟩ := hdrawn
      rw [hkind] at hk
      cases hk
  | cells xs =>
      obtain ⟨-, -, default, hd1, -, hlen⟩ := hdrawn
      have hempty : case.lookup p.name = some (.cells []) ↔ xs = [] := by
        rw [hv, Option.some.injEq, Value.cells.injEq]
      rw [hempty, ← List.length_eq_zero_iff, hlen]
      -- without a length parameter a buffer has at least one cell
      rcases hl : p.lengthParam with - | l
      · have hnone : lengthOf d.scalars none default = default := rfl
        rw [hnone]
        refine iff_of_false (by omega) ?_
        rintro ⟨q, -, -, hq, -⟩
        cases hq
      · obtain ⟨q, hq, hqk, rfl⟩ := ha.lengths p hp l hl
        obtain ⟨i, hi, -⟩ := d.lookup_scalar ha hq hqk
        rw [d.lengthOf_eq hq hqk hi]
        constructor
        · intro h0
          exact ⟨q, hq, hqk, rfl, i, hi, by omega⟩
        · rintro ⟨q', -, -, hname, i', hi', h0⟩
          rw [← Option.some.inj hname, hi, Option.some.injEq, Value.int.injEq] at hi'
          omega

/-- Two cases of one text have the same values. -/
theorem lookup_of_caseText [Runtime F] [LawfulRuntime F] (ha : Accepted ps) {case' : Case}
    (h : Tame ps case) (h' : Tame ps case') (htext : caseText F case = caseText F case')
    {k : PyStr} {v v' : Value} (hv : case.lookup k = some v) (hv' : case'.lookup k = some v') :
    (v.wire : Json F).sortKeys = (v'.wire : Json F).sortKeys := by
  have hdepth := LawfulRuntime.maxDepth_le (F := F)
  have hjoined := (dumps_eq_iff plain_blank (sortKeys_fits (h.wire_fits (by omega)))
    (sortKeys_fits (h'.wire_fits (by omega)))).mp htext
  rw [(h.wire_clean ha).sortKeys.joined_eq, (h'.wire_clean ha).sortKeys.joined_eq] at hjoined
  obtain ⟨e, he, -, hlookup⟩ := sortKeys_obj (h.wire_clean (F := F) ha).1
  obtain ⟨e', he', -, hlookup'⟩ := sortKeys_obj (h'.wire_clean (F := F) ha).1
  obtain rfl : e = e' := Json.obj.inj (he.symm.trans (hjoined.trans he'))
  have hsame := (hlookup k).symm.trans (hlookup' k)
  rw [lookup_wire hv, lookup_wire hv'] at hsame
  exact Option.some.inj hsame

/-- Two drawn cases without memory differ in a number. -/
theorem exists_differing (h : Tame ps case) {case' : Case}
    (h' : Tame ps case') (hkeys : Dict.keys case = Dict.keys case') (hbare : Bare ps case)
    (hbare' : Bare ps case') (hne : case ≠ case') : ∃ q ∈ ps, q.kind = .i32 ∧ ∃ i i',
      case.lookup q.name = some (.int i) ∧ case'.lookup q.name = some (.int i') ∧ i ≠ i' := by
  by_contra hnone
  push Not at hnone
  refine hne (Dict.eq_of_lookup h.nodup hkeys fun k hk => ?_)
  obtain ⟨q, hq, rfl⟩ := List.mem_map.mp ((h.keys k).mp hk)
  by_cases hkind : q.kind = .i32
  · obtain ⟨v, hv, hsized⟩ := h.values q hq
    obtain ⟨v', hv', hsized'⟩ := h'.values q hq
    rw [hkind] at hsized hsized'
    cases hsized with
    | int hi =>
        cases hsized' with
        | int hi' => rw [hv, hv', hnone q hq hkind _ _ hv hv']
  · rw [hbare q hq hkind, hbare' q hq hkind]

end Cases

/-! ### A round that passes without memory -/

section Runtime

variable [Runtime F]

/-- **What a vacuous round needs.** -/
theorem evadable_of_vacuous {x : FunctionRound F} (ha : Accepted x.params)
    (hvoid : returnsVoid x.params = true) {runJob : WorkerJob → JobResult} {v : FnVerdict F}
    (h : validateFunction x (jobModel runJob) = some v) (hok : v.ok = true) {wants : List (Want F)}
    (hbatch : batchCallOriginal F x.original x.params (x.cases.map RoundCase.case) = some wants)
    (hnone : ∀ s ∈ survivors (x.round wants), ¬Observes s) : Evadable x.params x.nFuzz := by
  obtain ⟨wants', r, hanswers, hscalar, hfloors, -, -⟩ := validate_ok h hok
  obtain rfl : wants = wants' := Option.some.inj (hbatch.symm.trans hanswers.batch)
  obtain ⟨-, -, htwo⟩ := floors_ok.mp hfloors
  have hbare : ∀ s ∈ survivors (x.round wants), Bare x.params s.case := by
    intro s hs
    obtain ⟨j, args, final, hargs, -, -, hmem⟩ := hanswers.answered hs
    exact (not_observes_iff ha (runnable_of_kept ha hanswers hs).tame hargs hmem).mp (hnone s hs)
  obtain ⟨s, hs, t, ht, hsd, htd, hne⟩ := exists_distinct htwo
  have htame := (runnable_of_kept ha hanswers hs).tame
  have htame' := (runnable_of_kept ha hanswers ht).tame
  -- the two cases are drawn, as they are declared
  have hdrawn : ∀ u ∈ survivors (x.round wants), u.declared = true →
      ∃ k, u.case = (genCase x.stream x.params k).case := by
    intro u hu hd
    have hcase : u.toRoundCase ∈ x.cases := (List.of_mem_zip (mem_survivors.mp hu)).1
    rcases FunctionRound.mem_cases hcase with ⟨-, hk⟩ | ⟨hfalse, -⟩
    · exact hk
    · rw [hd] at hfalse
      cases hfalse
  obtain ⟨k, hk⟩ := hdrawn s hs hsd
  obtain ⟨k', hk'⟩ := hdrawn t ht htd
  have d : Drawn x.params s.case := hk ▸ (genCase_drawn x.stream ha k).choose
  have d' : Drawn x.params t.case := hk' ▸ (genCase_drawn x.stream ha k').choose
  have hdiffer : s.case ≠ t.case := by
    intro heq
    rw [heq] at hne
    exact hne rfl
  obtain ⟨q, hq, hqk, i, i', hi, hi', hii⟩ := exists_differing htame htame'
    (d.keys.trans d'.keys.symm) (hbare s hs) (hbare t ht) hdiffer
  -- what sizes a buffer is at most zero in both
  have hempty : ∀ p ∈ x.params, p.kind = .bufferI32 → ∀ u, Drawn x.params u → Bare x.params u →
      ∃ q ∈ x.params, q.kind = .i32 ∧ p.lengthParam = some q.name ∧
        ∃ i, u.lookup q.name = some (.int i) ∧ i ≤ 0 := by
    intro p hp hpk u du hu
    exact (du.empty_iff ha hp hpk).mp (hu p hp (by rw [hpk]; decide))
  have hrange : ∀ u, Drawn x.params u → ∀ q ∈ x.params, q.kind = .i32 → ∀ i,
      u.lookup q.name = some (.int i) → q.lo ≤ i ∧ i ≤ q.hi := by
    intro u du q hq hqk i hi
    obtain ⟨j, hj, hle⟩ := du.lookup_scalar ha hq hqk
    obtain rfl : j = i := Value.int.inj (Option.some.inj (hj.symm.trans hi))
    exact hle
  have hlo := hrange _ d q hq hqk i hi
  have hlo' := hrange _ d' q hq hqk i' hi'
  have hnotString : ∀ p ∈ x.params, p.kind ≠ .cstring := by
    intro p hp hpk
    obtain ⟨w, hw, hsized⟩ := htame.values p hp
    rw [hbare s hs p hp (by rw [hpk]; decide)] at hw
    obtain rfl := Option.some.inj hw
    rw [hpk] at hsized
    cases hsized
  refine ⟨?_, hanswers.arity, ?_, hnotString, ?_, q, hq, hqk, by omega, ?_⟩
  · have hkept := length_survivors_le (x.round wants)
    rw [hanswers.length] at hkept
    exact htwo.trans ((length_distinctTexts_le _).trans hkept)
  · obtain ⟨p, hp, hkind | hkind⟩ := exists_channel hscalar hvoid
    · exact ⟨p, hp, hkind⟩
    · exact absurd hkind (hnotString p hp)
  · intro p hp hpk
    obtain ⟨r, hr, hrk, hname, j, hj, hj0⟩ := hempty p hp hpk _ d (hbare s hs)
    exact ⟨r, hr, hrk, hname, (hrange _ d r hr hrk j hj).1.trans hj0⟩
  · rintro ⟨p, hp, hpk, hname⟩
    obtain ⟨r, hr, hrk, hrname, j, hj, hj0⟩ := hempty p hp hpk _ d (hbare s hs)
    obtain ⟨r', hr', hrk', hrname', j', hj', hj0'⟩ := hempty p hp hpk _ d' (hbare t ht)
    rw [← Option.some.inj (hname.symm.trans hrname), hi] at hj
    rw [← Option.some.inj (hname.symm.trans hrname'), hi'] at hj'
    obtain rfl := Value.int.inj (Option.some.inj hj)
    obtain rfl := Value.int.inj (Option.some.inj hj')
    omega

end Runtime

/-! ### Making one -/

/-- A stream of zeros with a one at the `k`-th call. -/
def oneAt (k : ℕ) : Stream := fun j => if j = k then 1 else 0

/-- What a function leaves behind that clears all its memory. -/
def cleared : Final := ⟨0, fun _ _ => 0, fun _ _ => 0⟩

/-- A function that returns from its first two calls only. -/
def returnsTwice : Original := fun k _ => if k < 2 then .returned cleared else .stopped

/-- A round of that function, without scouts. -/
def bareRound (F : Type) (ps : List Param) (n k : ℕ) : FunctionRound F where
  func := py "f"
  source := []
  params := ps
  seed := .int 0
  stream := oneAt k
  nFuzz := n
  immediates := []
  original := returnsTwice

theorem randint_oneAt (k j : ℕ) {lo hi : ℤ} (h : lo ≤ hi) :
    randint (oneAt k) j lo hi = if j = k ∧ lo < hi then lo + 1 else lo := by
  rw [randint, oneAt]
  by_cases hj : j = k
  · rw [if_pos hj]
    by_cases hlt : lo < hi
    · rw [if_pos ⟨hj, hlt⟩, Nat.cast_one, Int.emod_eq_of_lt (by omega) (by omega)]
    · obtain rfl : lo = hi := by omega
      rw [if_neg (by simp), sub_self, zero_add, Int.emod_one, add_zero]
  · rw [if_neg hj, if_neg (by simp [hj]), Nat.cast_zero, Int.zero_emod, add_zero]

/-- The number of the `i`-th scalar comes from the `i`-th call. -/
theorem lookup_genCase (stream : Stream) {ps : List Param} (ha : Accepted ps) (k : ℕ) {i : ℕ}
    {q : Param} (hq : (scalarParams ps)[i]? = some q) :
    (genCase stream ps k).case.lookup q.name =
      some (.int (randint stream (k + i) q.lo q.hi)) := by
  obtain ⟨d, hd, -⟩ := genCase_drawn stream ha k
  refine Dict.lookup_eq_some_of_mem (d.nodup ha) ?_
  rw [d.case_eq, hd]
  refine List.mem_append_left _ (List.mem_map.mpr ⟨(q, k + i), ?_, rfl⟩)
  rw [List.mk_mem_zipIdx_iff_le_and_getElem?_sub, Nat.add_sub_cancel_left]
  exact ⟨Nat.le_add_right k i, hq⟩

/-- The cases of the round are without memory. -/
theorem bare_genCase {ps : List Param} {n : ℕ} (ha : Accepted ps) (he : Evadable ps n) {i : ℕ}
    {q : Param} (hq : (scalarParams ps)[i]? = some q) (hsizes : SizesBuffer ps q → q.lo < 0)
    {k : ℕ} (hk : k = 0 ∨ i < k) : Bare ps (genCase (oneAt i) ps k).case := by
  intro p hp hkind
  have hbuffer : p.kind = .bufferI32 := by
    cases hk : p.kind with
    | i32 => exact absurd hk hkind
    | bufferI32 => rfl
    | cstring => exact absurd hk (he.noString p hp)
  obtain ⟨d, -, -⟩ := genCase_drawn (oneAt i) ha k
  refine (d.empty_iff ha hp hbuffer).mpr ?_
  obtain ⟨r, hr, hrk, hname, hlo⟩ := he.empty p hp hbuffer
  have hscalar : r ∈ scalarParams ps := List.mem_filter.mpr ⟨hr, decide_eq_true hrk⟩
  obtain ⟨j, hj⟩ := List.getElem?_of_mem hscalar
  refine ⟨r, hr, hrk, hname, _, lookup_genCase (oneAt i) ha k hj, ?_⟩
  rw [randint_oneAt i _ (ha.range r hr).2.1]
  split_ifs with hone
  · -- only the scalar itself is drawn above its bound, in the first case
    obtain rfl : j = i := by omega
    obtain rfl : r = q := Option.some.inj (hj.symm.trans hq)
    have := hsizes ⟨p, hp, hbuffer, hname⟩
    omega
  · exact hlo

section Runtime

variable [Runtime F]

omit [Runtime F] in
theorem runCases_stopped {ps : List Param} {k : ℕ} (hk : 2 ≤ k) {cases : List Case}
    {ws : List (Want F)} (h : runCases F returnsTwice ps k cases = some ws) :
    ∀ w ∈ ws, w = .fault false := by
  induction cases generalizing k ws with
  | nil =>
      cases h
      exact fun w hw => absurd hw List.not_mem_nil
  | cons c cs ih =>
      rw [runCases] at h
      obtain ⟨w, hw, h⟩ := Option.bind_eq_some_iff.mp h
      obtain ⟨us, hus, h⟩ := Option.bind_eq_some_iff.mp h
      cases h
      obtain ⟨args, -, rfl⟩ := runCase_eq_some.mp hw
      have hstop : returnsTwice k args = .stopped := if_neg (by omega)
      rw [hstop]
      exact List.forall_mem_cons.mpr ⟨rfl, ih (by omega) hus⟩

/-- The two survivors of the round. -/
def bareKept (F : Type) (ps : List Param) (c c' : Case) : List (Survivor F) :=
  [⟨⟨c, true⟩, 0, readBack ps c cleared⟩, ⟨⟨c', true⟩, 0, readBack ps c' cleared⟩]

omit [Runtime F] in
/-- Without scouts all cases are drawn. -/
theorem cases_bareRound (ps : List Param) (n i : ℕ) : (bareRound F ps n i).cases =
    (genInputs (oneAt i) ps 0 n).map fun c => ⟨c, true⟩ := by
  have hnone : min (min (scoutSliceBudget n) 0) n = 0 := by omega
  show mergeScoutCases _ [] n = _
  rw [mergeScoutCases, List.length_nil, hnone]
  rfl

omit [Runtime F] in
theorem survivors_returnsTwice {x : FunctionRound F} (horiginal : x.original = returnsTwice)
    {wants : List (Want F)} (hanswers : Answers x wants) {c c' : Case} {rest : List RoundCase}
    (hcases : x.cases = ⟨c, true⟩ :: ⟨c', true⟩ :: rest) :
    survivors (x.round wants) = bareKept F x.params c c' := by
  have hbatch := hanswers.batch
  rw [batchCallOriginal, if_neg (not_lt.mpr hanswers.arity), horiginal, hcases, List.map_cons,
    List.map_cons, runCases, runCases] at hbatch
  obtain ⟨w, hw, hbatch⟩ := Option.bind_eq_some_iff.mp hbatch
  obtain ⟨us, hus, hbatch⟩ := Option.bind_eq_some_iff.mp hbatch
  obtain ⟨w', hw', hus⟩ := Option.bind_eq_some_iff.mp hus
  obtain ⟨ws, hws, hus⟩ := Option.bind_eq_some_iff.mp hus
  cases hus
  cases hbatch
  obtain ⟨args, -, rfl⟩ := runCase_eq_some.mp hw
  obtain ⟨args', -, rfl⟩ := runCase_eq_some.mp hw'
  have hrest : survivors (rest.zip ws) = [] := by
    rw [survivors, List.filterMap_eq_nil_iff]
    rintro ⟨d, u⟩ he
    rw [runCases_stopped (le_refl 2) hws u (List.of_mem_zip he).2]
  rw [FunctionRound.round, hcases]
  show _ :: _ :: survivors (rest.zip ws) = _
  rw [hrest]
  rfl

omit [Runtime F] in
theorem marshals_bareRound {ps : List Param} (ha : Accepted ps) (n i : ℕ) :
    ∀ c ∈ (bareRound F ps n i).cases.map RoundCase.case, (marshalCase ps c).isSome = true := by
  intro c hc
  rw [cases_bareRound, List.map_map] at hc
  obtain ⟨c', hc', rfl⟩ := List.mem_map.mp hc
  obtain ⟨j, rfl⟩ := mem_genInputs hc'
  obtain ⟨d, -, -⟩ := genCase_drawn (oneAt i) ha j
  exact d.marshals ha

omit [Runtime F] in
theorem no_faults {x : FunctionRound F} (horiginal : x.original = returnsTwice)
    {wants : List (Want F)} (hanswers : Answers x wants) :
    ∀ e ∈ x.round wants, e.1.declared = true → e.2.isMemFault = false := by
  rintro ⟨c, w⟩ hmem -
  obtain ⟨j, args, -, hw⟩ := (List.forall₂_iff_zip.mp hanswers.forall).2 hmem
  show w.isMemFault = false
  rw [hw, horiginal, returnsTwice]
  split_ifs <;> rfl

theorem two_le_distinctTexts {ps : List Param} {c c' : Case} (h : caseText F c ≠ caseText F c') :
    2 ≤ (distinctTexts (bareKept F ps c c')).length := by
  have hdedup : [caseText F c, caseText F c'].dedup = [caseText F c, caseText F c'] :=
    List.Nodup.dedup (by simpa using h)
  show 2 ≤ ([caseText F c, caseText F c'].dedup).length
  rw [hdedup]
  rfl

/-- The two cases have different texts. -/
theorem caseText_oneAt [LawfulRuntime F] {ps : List Param} (ha : Accepted ps) {q : Param}
    (hq : q ∈ ps) (hlt : q.lo < q.hi) {i k : ℕ} (hi : (scalarParams ps)[i]? = some q)
    (hk : i < k) : caseText F (genCase (oneAt i) ps 0).case ≠
      caseText F (genCase (oneAt i) ps k).case := by
  intro htext
  obtain ⟨d, -, -⟩ := genCase_drawn (oneAt i) ha 0
  obtain ⟨d', -, -⟩ := genCase_drawn (oneAt i) ha k
  have hsame := lookup_of_caseText ha (d.tame ha) (d'.tame ha) htext
    (lookup_genCase (oneAt i) ha 0 hi) (lookup_genCase (oneAt i) ha k hi)
  have hle := (ha.range q hq).2.1
  rw [randint_oneAt i _ hle, randint_oneAt i _ hle, if_pos ⟨Nat.zero_add i, hlt⟩,
    if_neg (by omega)] at hsame
  have := Json.int.inj hsame
  omega

/-- A candidate that clears all memory passes where the original does the same. -/
theorem zeroModel_passes [LawfulRuntime F] {x : FunctionRound F} (ha : Accepted x.params)
    (hscalar : scalarVoid x.params = false) {wants : List (Want F)} (hanswers : Answers x wants)
    (hfloors : floors x.nFuzz x.seed (x.round wants) = .ok (survivors (x.round wants)))
    (hlen : (survivors (x.round wants)).length ≤ 64)
    (hsame : ∀ s ∈ survivors (x.round wants), s.ret = 0 ∧
      s.mem = readBack x.params s.case cleared) :
    ∃ runJob v, validateFunction x (jobModel runJob) = some v ∧ v.ok = true := by
  have htame : ∀ s ∈ survivors (x.round wants), Tame x.params s.case :=
    fun s hs => (runnable_of_kept ha hanswers hs).tame
  have hout : (encode (dumps plain (workerOutput F x.params zeroModel
      (survivors (x.round wants))))).length ≤ 256 * 1024 := by
    have hascii : IsAscii (dumps plain (workerOutput F x.params zeroModel
      (survivors (x.round wants)))) := isAscii_render plain_blank _ 0
    rw [encode_ascii hascii, List.length_map]
    exact length_workerOutput_le ha hanswers.arity hlen htame zeroModel
  obtain ⟨hclean, hstdout⟩ := JobResult.printed_of_le hout
  have hvalidate := @validate_workerOutput F _ _ x ha hscalar wants hanswers hfloors zeroModel
    (fun _ => .printed _) hclean hstdout
  rcases compareCases_hostAnswers ha.nodup zeroModel x.seed
    (x.nFuzz - (survivors (x.round wants)).length) (fun s hs => hanswers.answered hs) 0 with
    ⟨-, hok⟩ | ⟨j, s, field, expected, actual, hs, -, hdiffers, -⟩
  · exact ⟨_, _, hvalidate.trans hok, rfl⟩
  · obtain ⟨hret, hmem⟩ := hsame s (List.mem_of_getElem? hs)
    exact absurd ⟨cleared, rfl, hmem.symm, fun _ => hret.symm⟩ hdiffers.not_agrees

/-- **An evadable declaration has a round that passes without memory.** -/
theorem exists_vacuous [LawfulRuntime F] {ps : List Param} {n : ℕ} (ha : Accepted ps)
    (he : Evadable ps n) : ¬NeverVacuous F ps n := by
  obtain ⟨q, hq, hqk, hlt, hsizes⟩ := he.varies
  have hmem : q ∈ scalarParams ps := List.mem_filter.mpr ⟨hq, decide_eq_true hqk⟩
  obtain ⟨i, hi⟩ := List.getElem?_of_mem hmem
  have hilt : i < (scalarParams ps).length := (List.getElem?_eq_some_iff.mp hi).1
  obtain ⟨m, rfl⟩ : ∃ m, n = m + 2 := ⟨n - 2, by have := he.two; omega⟩
  -- the second case is drawn from calls behind all scalars of the first
  obtain ⟨-, -, hk⟩ := genCase_drawn (oneAt i) ha 0
  have hik : i < (genCase (oneAt i) ps 0).next := by omega
  have hbatch : (batchCallOriginal F returnsTwice ps _).isSome = true :=
    (batchCallOriginal_isSome he.arity).mpr (marshals_bareRound (F := F) ha (m + 2) i)
  obtain ⟨wants, hwants⟩ := Option.isSome_iff_exists.mp hbatch
  have hanswers : Answers (bareRound F ps (m + 2) i) wants := ⟨hwants, he.arity⟩
  have hkept := survivors_returnsTwice rfl hanswers (cases_bareRound ps (m + 2) i)
  have hfloors : floors (m + 2) (.int 0) ((bareRound F ps (m + 2) i).round wants) =
      .ok (survivors ((bareRound F ps (m + 2) i).round wants)) := by
    refine floors_ok.mpr ⟨rfl, no_faults rfl hanswers, ?_⟩
    rw [hkept]
    exact two_le_distinctTexts (caseText_oneAt ha hq hlt hi hik)
  have hscalar : scalarVoid ps = false := by
    obtain ⟨p, hp, hpk⟩ := he.buffer
    have hchannel : ps.any isChannel = true :=
      List.any_eq_true.mpr ⟨p, hp, decide_eq_true (.inl hpk)⟩
    rw [scalarVoid, hchannel]
    simp
  have htwo : ∀ s ∈ survivors ((bareRound F ps (m + 2) i).round wants), s.ret = 0 ∧
      s.mem = readBack ps s.case cleared ∧ Bare ps s.case := by
    rw [hkept]
    refine List.forall_mem_cons.mpr ⟨⟨rfl, rfl, bare_genCase ha he hi hsizes (.inl rfl)⟩, ?_⟩
    exact List.forall_mem_singleton.mpr ⟨rfl, rfl, bare_genCase ha he hi hsizes (.inr hik)⟩
  have hlen : (survivors ((bareRound F ps (m + 2) i).round wants)).length ≤ 64 := by
    rw [hkept]
    show 2 ≤ 64
    decide
  obtain ⟨runJob, v, hv, hok⟩ := zeroModel_passes ha hscalar hanswers hfloors hlen
    fun s hs => ⟨(htwo s hs).1, (htwo s hs).2.1⟩
  intro hnever
  obtain ⟨s, hs, hobserves⟩ := hnever _ rfl rfl runJob v hv hok wants hwants
  obtain ⟨j, args, final, hargs, -, -, hmem⟩ := hanswers.answered hs
  have htame := (runnable_of_kept ha hanswers hs).tame
  exact (not_observes_iff ha htame hargs hmem).mpr (htwo s hs).2.2 hobserves

/-- **When a round of a function without a result cannot pass on nothing.** -/
theorem neverVacuous_iff [LawfulRuntime F] {raw : Bytes} {ps : List Param} {n : ℕ}
    (hps : paramsOf F raw = .ok ps) (hvoid : returnsVoid ps = true) :
    NeverVacuous F ps n ↔ ¬Evadable ps n := by
  have ha := paramsOf_accepted hps
  refine ⟨fun hnever he => exists_vacuous ha he hnever, fun hnot x hx hn runJob v hv hok wants
    hwants => ?_⟩
  subst hx hn
  by_contra hnone
  push Not at hnone
  exact hnot (evadable_of_vacuous ha hvoid hv hok hwants hnone)

end Runtime

/-- A buffer with a length that is always negative. -/
def negativeLength : List Param :=
  [⟨py "buf", .bufferI32, some (py "n"), -100, 100, .void⟩,
   ⟨py "n", .i32, none, -5, -1, .i32⟩]

theorem accepted_negativeLength : Accepted negativeLength where
  names := by decide
  nodup := by decide
  range := by decide
  lengths := by
    intro p hp l hl
    refine ⟨⟨py "n", .i32, none, -5, -1, .i32⟩, by simp [negativeLength], rfl, ?_⟩
    rcases List.mem_cons.mp hp with rfl | hp
    · exact Option.some.inj hl
    · rw [List.mem_singleton.mp hp] at hl
      cases hl
  sizing := by decide

theorem evadable_negativeLength : Evadable negativeLength 64 where
  two := by decide
  arity := by decide
  buffer := ⟨_, List.mem_cons_self, rfl⟩
  noString := by decide
  empty := by
    intro p hp hkind
    refine ⟨⟨py "n", .i32, none, -5, -1, .i32⟩, by simp [negativeLength], rfl, ?_, by decide⟩
    rcases List.mem_cons.mp hp with rfl | hp
    · rfl
    · rw [List.mem_singleton.mp hp] at hkind
      cases hkind
  varies := ⟨⟨py "n", .i32, none, -5, -1, .i32⟩, by simp [negativeLength], rfl, by decide,
    fun _ => by decide⟩

/-- The declaration is accepted, and a candidate for it passes without memory. -/
theorem exists_vacuous_negativeLength : ∃ raw, paramsOf ZeroFloat raw = .ok negativeLength ∧
    returnsVoid negativeLength = true ∧ ¬NeverVacuous ZeroFloat negativeLength 64 :=
  ⟨_, paramsOf_dumps accepted_negativeLength, rfl,
    exists_vacuous accepted_negativeLength evadable_negativeLength⟩

/-- It is a declaration like any other here: it can be evaded, and it is. -/
theorem neverVacuous_negativeLength :
    NeverVacuous ZeroFloat negativeLength 64 ↔ ¬Evadable negativeLength 64 :=
  neverVacuous_iff (paramsOf_dumps accepted_negativeLength) rfl

end ReSchema
