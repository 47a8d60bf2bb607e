/-
ReSchema/RoundCases.lean

What every case of a round is like, drawn or made by the scouts.

It has exactly one value for each parameter, of the parameter's kind and of
bounded size (`Tame`): no string is longer than 17 bytes and no buffer longer
than 32 cells, since a parameter that sizes a buffer is capped.
-/
import ReSchema.Marshalling

namespace ReSchema

open Py

/-! ### Tame cases -/

/-- A value of the kind of a parameter, of bounded size. -/
inductive Sized : Kind → Value → Prop
  | int {i : ℤ} (h : i.natAbs < 2 ^ 33) : Sized .i32 (.int i)
  | bytes {b : Bytes} (h : b.length ≤ 17) : Sized .cstring (.bytes b)
  | cells {xs : List ℤ} (hlen : xs.length ≤ 32) (h : ∀ x ∈ xs, x.natAbs < 2 ^ 33) :
      Sized .bufferI32 (.cells xs)

theorem sized_int {kind : Kind} {i : ℤ} :
    Sized kind (.int i) ↔ kind = .i32 ∧ i.natAbs < 2 ^ 33 := by
  constructor
  · intro hs
    cases hs with
    | int h => exact ⟨rfl, h⟩
  · rintro ⟨rfl, h⟩
    exact .int h

theorem sized_bytes {kind : Kind} {b : Bytes} :
    Sized kind (.bytes b) ↔ kind = .cstring ∧ b.length ≤ 17 := by
  constructor
  · intro hs
    cases hs with
    | bytes h => exact ⟨rfl, h⟩
  · rintro ⟨rfl, h⟩
    exact .bytes h

theorem sized_cells {kind : Kind} {xs : List ℤ} : Sized kind (.cells xs) ↔
    kind = .bufferI32 ∧ xs.length ≤ 32 ∧ ∀ x ∈ xs, x.natAbs < 2 ^ 33 := by
  constructor
  · intro hs
    cases hs with
    | cells hlen h => exact ⟨rfl, hlen, h⟩
  · rintro ⟨rfl, hlen, h⟩
    exact .cells hlen h

/-- A case with one value for each parameter. -/
structure Tame (ps : List Param) (case : Case) : Prop where
  nodup : (Dict.keys case).Nodup
  keys : ∀ k, k ∈ Dict.keys case ↔ k ∈ ps.map Param.name
  values : ∀ p ∈ ps, ∃ v, case.lookup p.name = some v ∧ Sized p.kind v

/-- The length of a buffer is the value of the scalar that sizes it. -/
theorem Drawn.lengthOf_eq {ps : List Param} {case : Case} (d : Drawn ps case) {q : Param}
    (hq : q ∈ ps) (hkind : q.kind = .i32) {i : ℤ} (hi : case.lookup q.name = some (.int i))
    (default : ℤ) : lengthOf d.scalars (some q.name) default = i := by
  have hkeys : q.name ∈ d.scalars.keys := by
    have hs := keys_of_related (R := fun p v => ∃ i, v = .int i ∧ p.lo ≤ i ∧ i ≤ p.hi)
      d.scalars_drawn
    rw [hs]
    exact List.mem_map_of_mem (List.mem_filter.mpr ⟨hq, decide_eq_true hkind⟩)
  have hlookup : d.scalars.lookup q.name = some (.int i) := by
    rw [← hi, ← Dict.lookup_append_of_mem (e := d.memory) hkeys]
    exact congrArg (fun c : Case => c.lookup q.name) d.case_eq.symm
  simp only [lengthOf, Option.bind_some, hlookup]

/-- A length that is drawn is that of a capped parameter, or the default. -/
theorem lengthOf_le {ps : List Param} (h : Accepted ps) {case : Case} (d : Drawn ps case)
    {p : Param} (hp : p ∈ ps) {default : ℤ} (hdefault : default ≤ 8) :
    lengthOf d.scalars p.lengthParam default ≤ 32 := by
  rcases hl : p.lengthParam with - | l
  · have hnone : lengthOf d.scalars none default = default := rfl
    omega
  · obtain ⟨q, hq, hkind, rfl⟩ := h.lengths p hp l hl
    have hcap := h.sizing q hq (List.mem_filterMap.mpr ⟨p, hp, hl⟩)
    obtain ⟨i, hi, -, hhi⟩ := d.lookup_scalar h hq hkind
    have hmax : maxBufferLen = 32 := rfl
    rw [d.lengthOf_eq hq hkind hi]
    omega

/-- **A drawn case is tame.** -/
theorem Drawn.tame {ps : List Param} {case : Case} (d : Drawn ps case) (h : Accepted ps) :
    Tame ps case := by
  refine ⟨d.nodup h, fun k => ?_, fun p hp => ?_⟩
  · rw [d.keys, List.map_append, List.mem_append, List.mem_map, List.mem_map, List.mem_map]
    constructor
    · rintro (⟨p, hp, rfl⟩ | ⟨p, hp, rfl⟩)
      · exact ⟨p, List.mem_of_mem_filter hp, rfl⟩
      · exact ⟨p, List.mem_of_mem_filter hp, rfl⟩
    · rintro ⟨p, hp, rfl⟩
      by_cases hkind : p.kind = .i32
      · exact .inl ⟨p, List.mem_filter.mpr ⟨hp, decide_eq_true hkind⟩, rfl⟩
      · exact .inr ⟨p, List.mem_filter.mpr ⟨hp, decide_eq_true hkind⟩, rfl⟩
  · have hrange := h.range p hp
    by_cases hkind : p.kind = .i32
    · obtain ⟨i, hi, hlo, hhi⟩ := d.lookup_scalar h hp hkind
      exact ⟨_, hi, hkind ▸ .int (by omega)⟩
    · obtain ⟨v, hv, hdrawn⟩ := d.lookup_memory h hp hkind
      refine ⟨v, hv, ?_⟩
      cases v with
      | int i => exact hdrawn.elim
      | bytes b =>
          obtain ⟨hk, -, hlen⟩ := hdrawn
          exact hk ▸ .bytes hlen
      | cells xs =>
          obtain ⟨hk, hxs, default, -, hd8, hlen⟩ := hdrawn
          have hle := lengthOf_le h d hp hd8
          refine hk ▸ .cells (by omega) fun x hx => ?_
          have := hxs x hx
          omega

theorem sized_scoutValue {raw : ℕ} (hraw : raw < 2 ^ 32) {needle : ℤ} (h : needle ∈ readings raw)
    (kind : Kind) : Sized kind (scoutValue raw needle kind) := by
  have hneedle : needle.natAbs < 2 ^ 33 := by
    unfold readings at h
    split_ifs at h
    · obtain rfl := List.mem_singleton.mp h
      omega
    · rcases List.mem_cons.mp h with rfl | h
      · omega
      · obtain rfl := List.mem_singleton.mp h
        omega
  cases kind with
  | i32 => exact .int hneedle
  | cstring => exact .bytes (by simp [littleEndian])
  | bufferI32 => exact .cells (by simp) (by simpa using hneedle)

/-- **A scout case is tame.** -/
theorem scoutCase_tame {ps : List Param} (h : Accepted ps) {raw : ℕ} (hraw : raw < 2 ^ 32)
    {needle : ℤ} (hneedle : needle ∈ readings raw) : Tame ps (scoutCase ps raw needle) := by
  have hkeys := keys_scoutValues ps raw needle
  refine ⟨?_, fun k => ?_, fun p hp => ⟨_, lookup_scoutCase h raw needle hp, ?_⟩⟩
  · rw [scoutCase_eq h]
    exact Dict.nodup_keys_update (hkeys ▸ h.nodup) _
  · rw [scoutCase_eq h, Dict.mem_keys_update, hkeys]
    refine or_iff_left_of_imp fun hk => ?_
    obtain ⟨e, he, rfl⟩ := List.mem_map.mp hk
    obtain ⟨l, hl, rfl⟩ := List.mem_map.mp he
    exact of_decide_eq_true (List.mem_filter.mp hl).2
  · by_cases hl : p.name ∈ scoutLengths ps
    · rw [if_pos hl, kind_of_scoutLength h hp hl]
      exact .int (by decide)
    · rw [if_neg hl]
      exact sized_scoutValue hraw hneedle p.kind

/-- What a case of a round is: one that was drawn, which is declared, or one of the scouts. -/
theorem FunctionRound.mem_cases {F : Type} {x : FunctionRound F} {c : RoundCase}
    (hc : c ∈ x.cases) :
    (c.declared = true ∧ ∃ k, c.case = (genCase x.stream x.params k).case) ∨
    (c.declared = false ∧ ∃ raw < 2 ^ 32, ∃ needle ∈ readings raw,
      c.case = scoutCase x.params raw needle) := by
  rw [FunctionRound.cases, mergeScoutCases, List.mem_append] at hc
  rcases hc with hc | hc
  · obtain ⟨case, hcase, rfl⟩ := List.mem_map.mp (List.mem_of_mem_take hc)
    obtain ⟨raw, hraw, hscout⟩ := List.mem_flatMap.mp hcase
    obtain ⟨needle, hneedle, rfl⟩ := List.mem_map.mp (List.mem_of_mem_filter hscout)
    obtain ⟨i, -, rfl⟩ := List.mem_map.mp hraw
    exact .inr ⟨rfl, _, i.toNat_lt, needle, hneedle, rfl⟩
  · obtain ⟨case, hcase, rfl⟩ := List.mem_map.mp (List.mem_of_mem_drop hc)
    exact .inl ⟨rfl, mem_genInputs hcase⟩

/-- **Every case of a round is tame.** -/
theorem FunctionRound.tame {F : Type} {x : FunctionRound F} (h : Accepted x.params)
    {c : RoundCase} (hc : c ∈ x.cases) : Tame x.params c.case := by
  rcases FunctionRound.mem_cases hc with ⟨-, k, hk⟩ | ⟨-, raw, hraw, needle, hneedle, hcase⟩
  · obtain ⟨d, -⟩ := genCase_drawn x.stream h k
    rw [hk]
    exact d.tame h
  · rw [hcase]
    exact scoutCase_tame h hraw hneedle

end ReSchema
