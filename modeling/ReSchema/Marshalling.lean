/-
ReSchema/Marshalling.lean

Which cases of a round can be marshalled.

A drawn case always can: every cell of a buffer lies in the declared range
(`Drawn.marshals`).  A scout case takes a constant of the code under each of
its readings, and the unsigned reading of a constant from 2^31 on is no cell
(`marshalCase_scoutCase_iff`).  It is the first case made of that constant, so
it is in the slice whenever the constant is among the first ones:
`marshals_iff` tells on which rounds the checker raises instead of giving a
verdict.
-/
import ReSchema.FunctionGate
import ReSchema.Py.Interpreter

namespace ReSchema

open Py

/-! ### Drawn cases -/

/-- The entries that the first pass of a case makes. -/
def drawnScalars (stream : Stream) (ps : List Param) (k : ℕ) : Case :=
  ((scalarParams ps).zipIdx k).map (scalarEntry stream)

theorem drawnScalars_spec (stream : Stream) {ps : List Param} (h : Accepted ps) (k : ℕ) :
    List.Forall₂ (fun p (e : PyStr × Value) => e.1 = p.name ∧
      ∃ i, e.2 = .int i ∧ p.lo ≤ i ∧ i ≤ p.hi) (scalarParams ps) (drawnScalars stream ps k) := by
  have go : ∀ (qs : List Param) (k : ℕ), (∀ q ∈ qs, q.lo ≤ q.hi) →
      List.Forall₂ (fun p (e : PyStr × Value) => e.1 = p.name ∧
        ∃ i, e.2 = .int i ∧ p.lo ≤ i ∧ i ≤ p.hi) qs ((qs.zipIdx k).map (scalarEntry stream)) := by
    intro qs
    induction qs with
    | nil => exact fun k _ => .nil
    | cons q qs ih =>
        intro k hle
        obtain ⟨hq, hqs⟩ := List.forall_mem_cons.mp hle
        rw [List.zipIdx_cons, List.map_cons]
        exact .cons ⟨rfl, _, rfl, randint_mem stream k hq⟩ (ih (k + 1) hqs)
  exact go _ k fun q hq => (h.range q (List.mem_of_mem_filter hq)).2.1

theorem keys_of_related {ps : List Param} {es : Case} {R : Param → Value → Prop}
    (h : List.Forall₂ (fun p (e : PyStr × Value) => e.1 = p.name ∧ R p e.2) ps es) :
    Dict.keys es = ps.map Param.name :=
  (related_map h fun _ _ hpe => hpe.1.symm).symm

theorem keys_drawnScalars (stream : Stream) {ps : List Param} (h : Accepted ps) (k : ℕ) :
    (drawnScalars stream ps k).keys = (scalarParams ps).map Param.name :=
  keys_of_related (R := fun p v => ∃ i, v = .int i ∧ p.lo ≤ i ∧ i ≤ p.hi)
    (drawnScalars_spec stream h k)

/-- **A drawn case is drawn**: its scalars come from the next calls of the generator, and the
rest from calls after these. -/
theorem genCase_drawn (stream : Stream) {ps : List Param} (h : Accepted ps) (k : ℕ) :
    ∃ d : Drawn ps (genCase stream ps k).case, d.scalars = drawnScalars stream ps k ∧
      k + (scalarParams ps).length ≤ (genCase stream ps k).next := by
  have hscalars := drawScalars_spec stream h.nodup ⟨[], k⟩ (by simp [Dict.keys])
  have hkeys := keys_drawnScalars stream h k
  have hlength : ∀ p ∈ ps, ∀ l, p.lengthParam = some l → l ∈ (drawnScalars stream ps k).keys := by
    intro p hp l hl
    obtain ⟨q, hq, hkind, rfl⟩ := h.lengths p hp l hl
    rw [hkeys]
    exact List.mem_map_of_mem (List.mem_filter.mpr ⟨hq, decide_eq_true hkind⟩)
  have hfresh : ∀ p ∈ ps, p.kind ≠ .i32 → p.name ∉ (drawnScalars stream ps k).keys := by
    intro p hp hkind hmem
    rw [hkeys] at hmem
    obtain ⟨q, hq, hqp⟩ := List.mem_map.mp hmem
    obtain ⟨hq, hqk⟩ := List.mem_filter.mp hq
    have hqeq : q = p := List.inj_on_of_nodup_map h.nodup hq hp hqp
    exact hkind (hqeq ▸ of_decide_eq_true hqk)
  obtain ⟨es, n, hfold, hn, hes⟩ := drawMemories_spec stream h.nodup
    (fun p hp => (h.range p hp).2.1) hlength ⟨drawnScalars stream ps k, k + (scalarParams ps).length⟩
    ⟨[], (List.append_nil _).symm⟩ hfresh
  have hdraw : genCase stream ps k = ⟨drawnScalars stream ps k ++ es, n⟩ := by
    rw [genCase, hscalars]
    exact hfold
  refine ⟨⟨_, es, congrArg Draw.case hdraw, drawnScalars_spec stream h k, hes⟩, rfl, ?_⟩
  rw [hdraw]
  exact hn

section Lookup

variable {ps : List Param} {case : Case}

/-- The scalars come first. -/
theorem Drawn.keys (d : Drawn ps case) :
    Dict.keys case = (scalarParams ps ++ memoryParams ps).map Param.name := by
  have hs : d.scalars.keys = (scalarParams ps).map Param.name :=
    keys_of_related (R := fun p v => ∃ i, v = .int i ∧ p.lo ≤ i ∧ i ≤ p.hi) d.scalars_drawn
  have hm : d.memory.keys = (memoryParams ps).map Param.name :=
    keys_of_related (R := MemoryDrawn d.scalars) d.memory_drawn
  have happend : (d.scalars ++ d.memory : Case).keys = d.scalars.keys ++ d.memory.keys :=
    List.map_append
  rw [List.map_append, ← hs, ← hm, ← happend]
  exact congrArg Dict.keys d.case_eq

/-- No name has two entries. -/
theorem Drawn.nodup (d : Drawn ps case) (h : Accepted ps) : (Dict.keys case).Nodup := by
  have hperm : (scalarParams ps ++ memoryParams ps).Perm ps := by
    have hnot : memoryParams ps = ps.filter fun p => !decide (p.kind = .i32) :=
      List.filter_congr fun p _ => decide_not
    rw [hnot]
    exact List.filter_append_perm (fun p => decide (p.kind = Kind.i32)) ps
  rw [d.keys]
  exact (hperm.map Param.name).nodup_iff.mpr h.nodup

/-- A scalar has a number in its range. -/
theorem Drawn.lookup_scalar (d : Drawn ps case) (h : Accepted ps) {p : Param} (hp : p ∈ ps)
    (hkind : p.kind = .i32) : ∃ i, case.lookup p.name = some (.int i) ∧ p.lo ≤ i ∧ i ≤ p.hi := by
  obtain ⟨e, he, hname, i, hi, hrange⟩ := related_right d.scalars_drawn
    (List.mem_filter.mpr ⟨hp, decide_eq_true hkind⟩)
  refine ⟨i, Dict.lookup_eq_some_of_mem (d.nodup h) ?_, hrange⟩
  rw [d.case_eq, ← hname, ← hi]
  exact List.mem_append_left _ he

/-- Any other parameter has what the second pass draws for it. -/
theorem Drawn.lookup_memory (d : Drawn ps case) (h : Accepted ps) {p : Param} (hp : p ∈ ps)
    (hkind : p.kind ≠ .i32) :
    ∃ v, case.lookup p.name = some v ∧ MemoryDrawn d.scalars p v := by
  obtain ⟨e, he, hname, hv⟩ := related_right d.memory_drawn
    (List.mem_filter.mpr ⟨hp, decide_eq_true hkind⟩)
  refine ⟨e.2, Dict.lookup_eq_some_of_mem (d.nodup h) ?_, hv⟩
  rw [d.case_eq, ← hname]
  exact List.mem_append_right _ he

end Lookup

/-! ### Marshalling -/

/-- **What can be packed**: the values of a signed 32-bit cell. -/
theorem packI32_isSome {i : ℤ} : (packI32 i).isSome = true ↔ -(2 ^ 31) ≤ i ∧ i < 2 ^ 31 := by
  unfold packI32
  split_ifs with h
  · simp only [Option.isSome_some, true_iff]
    exact h
  · simp only [Option.isSome_none, Bool.false_eq_true, false_iff]
    exact h

theorem marshal_cells {xs : List ℤ} : (marshal .bufferI32 (.cells xs)).isSome = true ↔
    ∀ x ∈ xs, -(2 ^ 31) ≤ x ∧ x < 2 ^ 31 := by
  rw [marshal, Option.isSome_map, isSome_mapM]
  exact forall₂_congr fun _ _ => packI32_isSome

theorem marshalCase_isSome {ps : List Param} {case : Case} :
    (marshalCase ps case).isSome = true ↔
      ∀ p ∈ ps, ((case.lookup p.name).bind (marshal p.kind)).isSome = true := isSome_mapM

/-- **A drawn case can be marshalled.** -/
theorem Drawn.marshals {ps : List Param} {case : Case} (d : Drawn ps case) (h : Accepted ps) :
    (marshalCase ps case).isSome = true := by
  rw [marshalCase_isSome]
  intro p hp
  have hrange := h.range p hp
  by_cases hkind : p.kind = .i32
  · obtain ⟨i, hi, -⟩ := d.lookup_scalar h hp hkind
    rw [hi, hkind]
    rfl
  · obtain ⟨v, hv, hdrawn⟩ := d.lookup_memory h hp hkind
    rw [hv, Option.bind_some]
    cases v with
    | int i => exact hdrawn.elim
    | bytes b =>
        rw [hdrawn.1]
        rfl
    | cells xs =>
        rw [hdrawn.1, marshal_cells]
        intro x hx
        have := hdrawn.2.1 x hx
        omega

theorem runCases_isSome {F : Type} {original : Original} {ps : List Param} {k : ℕ}
    {cases : List Case} : (runCases F original ps k cases).isSome = true ↔
      ∀ case ∈ cases, (marshalCase ps case).isSome = true := by
  induction cases generalizing k with
  | nil => simp [runCases]
  | cons c cs ih =>
      rw [runCases, List.forall_mem_cons, ← ih (k := k + 1)]
      rcases hm : marshalCase ps c with - | args
      · simp [runCase, hm]
      · rcases hr : runCases F original ps (k + 1) cs with - | ws <;> simp [runCase, hm]

/-- **The original gives its answers** exactly when every case can be marshalled. -/
theorem batchCallOriginal_isSome {F : Type} {original : Original} {ps : List Param}
    (harity : ps.length ≤ registerCount) {cases : List Case} :
    (batchCallOriginal F original ps cases).isSome = true ↔
      ∀ case ∈ cases, (marshalCase ps case).isSome = true := by
  rw [batchCallOriginal, if_neg (not_lt.mpr harity)]
  exact runCases_isSome

/-! ### Scout cases -/

/-- The names that size a buffer are names of scalars. -/
theorem kind_of_scoutLength {ps : List Param} (h : Accepted ps) {p : Param} (hp : p ∈ ps)
    (hmem : p.name ∈ scoutLengths ps) : p.kind = .i32 := by
  obtain ⟨r, hr, hlength⟩ := List.mem_filterMap.mp hmem
  split_ifs at hlength
  obtain ⟨q, hq, hkind, hname⟩ := h.lengths r hr p.name (Option.filter_eq_some_iff.mp hlength).1
  have hqp : q = p := List.inj_on_of_nodup_map h.nodup hq hp hname
  rw [← hqp, hkind]

theorem keys_scoutValues (ps : List Param) (raw : ℕ) (needle : ℤ) :
    Dict.keys (ps.map fun p => (p.name, scoutValue raw needle p.kind)) = ps.map Param.name := by
  rw [Dict.keys, List.map_map]
  rfl

/-- The readings go in with the names of the parameters, then the lengths are overwritten. -/
theorem scoutCase_eq {ps : List Param} (h : Accepted ps) (raw : ℕ) (needle : ℤ) :
    scoutCase ps raw needle =
      Dict.update (ps.map fun p => (p.name, scoutValue raw needle p.kind))
        (((scoutLengths ps).filter (· ∈ ps.map Param.name)).map fun l => (l, .int 1)) := by
  have hkeys := keys_scoutValues ps raw needle
  have hcase : Dict.update [] (ps.map fun p => (p.name, scoutValue raw needle p.kind)) =
      ps.map fun p => (p.name, scoutValue raw needle p.kind) :=
    Dict.update_nil (hkeys ▸ h.nodup)
  rw [scoutCase, hcase, hkeys]

/-- A scout case has the reading for each parameter, and one for a length. -/
theorem lookup_scoutCase {ps : List Param} (h : Accepted ps) (raw : ℕ) (needle : ℤ) {p : Param}
    (hp : p ∈ ps) : (scoutCase ps raw needle).lookup p.name =
      some (if p.name ∈ scoutLengths ps then .int 1 else scoutValue raw needle p.kind) := by
  have hkeys := keys_scoutValues ps raw needle
  have hlookup : (ps.map fun p => (p.name, scoutValue raw needle p.kind)).lookup p.name =
      some (scoutValue raw needle p.kind) :=
    Dict.lookup_eq_some_of_mem (hkeys ▸ h.nodup) (List.mem_map.mpr ⟨p, hp, rfl⟩)
  have hmem : p.name ∈ ps.map Param.name := List.mem_map_of_mem hp
  rw [scoutCase_eq h, Dict.lookup_update_map, hlookup]
  by_cases hl : p.name ∈ scoutLengths ps
  · rw [if_pos (List.mem_filter.mpr ⟨hl, decide_eq_true hmem⟩), if_pos hl]
  · rw [if_neg fun hf => hl (List.mem_of_mem_filter hf), if_neg hl]

theorem marshal_scoutValue (raw : ℕ) (needle : ℤ) (kind : Kind) :
    (marshal kind (scoutValue raw needle kind)).isSome = true ↔
      (kind = .bufferI32 → -(2 ^ 31) ≤ needle ∧ needle < 2 ^ 31) := by
  cases kind with
  | i32 => simp [scoutValue, marshal]
  | cstring => simp [scoutValue, marshal]
  | bufferI32 =>
      rw [scoutValue, marshal_cells]
      simp

/-- **What a scout case takes**: a reading that is a cell, unless there is no buffer. -/
theorem marshalCase_scoutCase_iff {ps : List Param} (h : Accepted ps) (raw : ℕ) (needle : ℤ) :
    (marshalCase ps (scoutCase ps raw needle)).isSome = true ↔
      ((∃ p ∈ ps, p.kind = .bufferI32) → -(2 ^ 31) ≤ needle ∧ needle < 2 ^ 31) := by
  rw [marshalCase_isSome]
  have hone : ∀ p ∈ ps, (((scoutCase ps raw needle).lookup p.name).bind
      (marshal p.kind)).isSome = true ↔
      (p.kind = .bufferI32 → -(2 ^ 31) ≤ needle ∧ needle < 2 ^ 31) := by
    intro p hp
    rw [lookup_scoutCase h raw needle hp, Option.bind_some]
    by_cases hl : p.name ∈ scoutLengths ps
    · have hkind := kind_of_scoutLength h hp hl
      simp [hkind, hl, marshal]
    · rw [if_neg hl, marshal_scoutValue]
  constructor
  · rintro hall ⟨p, hp, hkind⟩
    exact (hone p hp).mp (hall p hp) hkind
  · intro hneedle p hp
    exact (hone p hp).mpr fun hkind => hneedle ⟨p, hp, hkind⟩

/-! ### The slice -/

/-- The front of a concatenation whose blocks are one good item, or begin with a bad one. -/
theorem forall_take_flatMap {α β : Type} {f : α → List β} {P : β → Prop} {Q : α → Prop}
    (good : ∀ x, Q x → ∃ y, f x = [y] ∧ P y) (bad : ∀ x, ¬Q x → ∃ y ys, f x = y :: ys ∧ ¬P y)
    (xs : List α) (k : ℕ) :
    (∀ y ∈ (xs.flatMap f).take k, P y) ↔ ∀ x ∈ xs.take k, Q x := by
  induction xs generalizing k with
  | nil => simp
  | cons x xs ih =>
      cases k with
      | zero => simp
      | succ k =>
          rw [List.flatMap_cons, List.take_succ_cons, List.forall_mem_cons]
          by_cases hx : Q x
          · obtain ⟨y, hy, hP⟩ := good x hx
            rw [hy, List.singleton_append, List.take_succ_cons, List.forall_mem_cons, ih]
            exact and_congr_left fun _ => iff_of_true hP hx
          · obtain ⟨y, ys, hy, hP⟩ := bad x hx
            rw [hy, List.cons_append, List.take_succ_cons, List.forall_mem_cons]
            exact iff_of_false (fun h => hP h.1) fun h => hx h.1

theorem scoutCase_ne_nil {ps : List Param} (h : Accepted ps) {p : Param} (hp : p ∈ ps) (raw : ℕ)
    (needle : ℤ) : scoutCase ps raw needle ≠ [] := by
  intro hnil
  have hlookup := lookup_scoutCase h raw needle hp
  rw [hnil] at hlookup
  cases hlookup

/-- The scout cases of one constant, where there is a parameter. -/
theorem scoutInputs_eq {ps : List Param} (h : Accepted ps) {p : Param} (hp : p ∈ ps)
    (immediates : List ℕ) : scoutInputs ps immediates =
      immediates.flatMap fun raw => (readings raw).map (scoutCase ps raw) := by
  unfold scoutInputs
  congr 1
  funext raw
  apply List.filter_eq_self.mpr
  intro case hcase
  obtain ⟨needle, -, rfl⟩ := List.mem_map.mp hcase
  simpa using scoutCase_ne_nil h hp raw needle

theorem scoutSliceBudget_le (n : ℕ) : scoutSliceBudget n ≤ n :=
  (min_le_right _ _).trans (Nat.div_le_self n 4)

/-- The slice is as long as the budget, or it is all of the scout cases. -/
theorem mergeScoutCases_eq {α : Type} (uniform scout : List α) (n : ℕ) :
    ∃ k, mergeScoutCases uniform scout n = scout.take (scoutSliceBudget n) ++ uniform.drop k := by
  have hk : min (min (scoutSliceBudget n) scout.length) n =
      min (scoutSliceBudget n) scout.length :=
    min_eq_left ((min_le_left _ _).trans (scoutSliceBudget_le n))
  have htake : scout.take (min (scoutSliceBudget n) scout.length) =
      scout.take (scoutSliceBudget n) := by
    rw [List.take_eq_take_iff, min_assoc, min_self]
  refine ⟨min (scoutSliceBudget n) scout.length, ?_⟩
  rw [mergeScoutCases, hk, htake]

theorem mem_genInputs {stream : Stream} {ps : List Param} {k n : ℕ} {case : Case}
    (h : case ∈ genInputs stream ps k n) : ∃ j, case = (genCase stream ps j).case := by
  induction n generalizing k with
  | zero => exact absurd h List.not_mem_nil
  | succ n ih =>
      rcases List.mem_cons.mp h with rfl | h
      · exact ⟨k, rfl⟩
      · exact ih h

/-- **The slice can be marshalled** when the constants at its front have one reading each. -/
theorem scouts_marshal_iff {ps : List Param} (h : Accepted ps) {p : Param} (hp : p ∈ ps)
    (hkind : p.kind = .bufferI32) (immediates : List ℕ) (k : ℕ) :
    (∀ case ∈ (scoutInputs ps immediates).take k, (marshalCase ps case).isSome = true) ↔
      ∀ raw ∈ immediates.take k, raw < 2 ^ 31 := by
  have hcell : ∀ raw needle, (marshalCase ps (scoutCase ps raw needle)).isSome = true ↔
      -(2 ^ 31) ≤ needle ∧ needle < 2 ^ 31 := fun raw needle =>
    (marshalCase_scoutCase_iff h raw needle).trans (forall_prop_of_true ⟨p, hp, hkind⟩)
  rw [scoutInputs_eq h hp]
  refine forall_take_flatMap (fun raw hraw => ?_) (fun raw hraw => ?_) immediates k
  · have hread : readings raw = [(raw : ℤ)] := if_pos hraw
    refine ⟨scoutCase ps raw raw, by rw [hread]; rfl, (hcell raw raw).mpr ?_⟩
    omega
  · -- the unsigned reading comes first
    have hread : readings raw = [(raw : ℤ), raw - 0x100000000] := if_neg hraw
    refine ⟨scoutCase ps raw raw, _, by rw [hread]; rfl, fun hsome => ?_⟩
    have := (hcell raw raw).mp hsome
    omega

/-! ### The checker -/

/-- A declaration that the checker draws for: it parses, and neither its arity nor the floor
under functions without a result refuses it. -/
structure Drawable (F : Type) [Runtime F] (raw : Bytes) (ps : List Param) : Prop where
  parsed : paramsOf F raw = .ok ps
  arity : ps.length ≤ registerCount
  channel : scalarVoid ps = false

/-- The checker refuses the declaration, or every case of its round can be marshalled. -/
def NeverRaises (F : Type) [Runtime F] (raw : Bytes) (stream : Stream) (immediates : List UInt32)
    (n : ℕ) : Prop :=
  ∀ ps, Drawable F raw ps → ∀ case ∈ mergeScoutCases (genInputs stream ps 0 n)
    (scoutInputs ps (immediates.map UInt32.toNat)) n, (marshalCase ps case).isSome = true

/-- **When the checker gives a verdict.**  A declaration with a buffer makes it raise exactly
when a constant from 2^31 on is among those at the front, from which the slice is filled. -/
theorem marshals_iff (F : Type) [Runtime F] (raw : Bytes) (stream : Stream)
    (immediates : List UInt32) (n : ℕ) :
    NeverRaises F raw stream immediates n ↔ ∀ ps, Drawable F raw ps →
      (∀ p ∈ ps, p.kind ≠ .bufferI32) ∨
        ∀ i ∈ immediates.take (scoutSliceBudget n), i.toNat < 2 ^ 31 := by
  refine forall₂_congr fun ps hd => ?_
  have haccepted := paramsOf_accepted hd.parsed
  obtain ⟨k, hmerge⟩ := mergeScoutCases_eq (genInputs stream ps 0 n)
    (scoutInputs ps (immediates.map UInt32.toNat)) n
  have huniform : ∀ case ∈ (genInputs stream ps 0 n).drop k,
      (marshalCase ps case).isSome = true := by
    intro case hcase
    obtain ⟨j, rfl⟩ := mem_genInputs (List.mem_of_mem_drop hcase)
    obtain ⟨d, -⟩ := genCase_drawn stream haccepted j
    exact d.marshals haccepted
  rw [hmerge, List.forall_mem_append, and_iff_left huniform]
  by_cases hbuffer : ∃ p ∈ ps, p.kind = .bufferI32
  · obtain ⟨p, hp, hkind⟩ := hbuffer
    have hsome : ¬∀ p ∈ ps, p.kind ≠ .bufferI32 := fun hall => hall p hp hkind
    rw [scouts_marshal_iff haccepted hp hkind, or_iff_right hsome, ← List.map_take,
      List.forall_mem_map]
  · have hnone : ∀ p ∈ ps, p.kind ≠ .bufferI32 := fun p hp hkind => hbuffer ⟨p, hp, hkind⟩
    refine iff_of_true ?_ (.inl hnone)
    intro case hcase
    obtain ⟨raw, -, hscout⟩ := List.mem_flatMap.mp (List.mem_of_mem_take hcase)
    obtain ⟨needle, -, rfl⟩ := List.mem_map.mp (List.mem_of_mem_filter hscout)
    exact (marshalCase_scoutCase_iff haccepted _ needle).mpr fun hex => absurd hex hbuffer

/-- One buffer, as a worker would declare it. -/
def bufferParam : Param := ⟨py "b", .bufferI32, none, -100, 100, .i32⟩

theorem accepted_bufferParam : Accepted [bufferParam] where
  names := by decide
  nodup := by decide
  range := by decide
  lengths := by simp [bufferParam]
  sizing := by decide

/-- A comparison with -1 in the original is enough: `cmp eax, -1` has the constant 0xffffffff. -/
theorem buffer_raises : ¬∀ (raw : Bytes) (stream : Stream) (immediates : List UInt32) (n : ℕ),
    NeverRaises ZeroFloat raw stream immediates n := by
  intro hall
  have hd : Drawable ZeroFloat
      (encode (dumps plain (.arr ([bufferParam].map (Param.toJson (F := ZeroFloat))))))
      [bufferParam] := ⟨paramsOf_dumps accepted_bufferParam, by decide, by decide⟩
  obtain ⟨k, hmerge⟩ := mergeScoutCases_eq (genInputs (fun _ => 0) [bufferParam] 0 64)
    (scoutInputs [bufferParam] ([0xffffffff].map UInt32.toNat)) 64
  have hcases := hall _ (fun _ => 0) [0xffffffff] 64 _ hd
  rw [hmerge, List.forall_mem_append, scouts_marshal_iff accepted_bufferParam
    (List.mem_singleton_self _) rfl] at hcases
  have hbudget : scoutSliceBudget 64 = 16 := by decide
  have hraw : (0xffffffff : UInt32).toNat = 0xffffffff := by simp
  have hlow := hcases.1 0xffffffff (by simp [hbudget])
  omega

end ReSchema
