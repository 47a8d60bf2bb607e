/-
ReSchema/DrawnCases.lean

Drawn cases are coherent, and can be asked for again.

`gen_inputs` draws in two passes from one stream: scalars, and then strings and
buffers, whose lengths the scalars may give.  `Coherent` is what a case is like
after both of them, whatever the order of the declarations: the length of a
buffer is the value that the same case has for the parameter that sizes it.

The operation `experiment_function` has a check on cases of its own, written for
what workers send.  A drawn case passes it in the form in which cases travel
(`genInputs_coherent`), so what the host has drawn a worker can ask for again.
-/
import ReSchema.HonestWorker
import ReSchema.ExperimentFunction

namespace ReSchema

open Py

/-! ### Coherent cases -/

/-- What is drawn for a parameter, in a case. -/
def CoherentValue (case : Case) (p : Param) : Value → Prop
  | .int i => p.kind = .i32 ∧ p.lo ≤ i ∧ i ≤ p.hi
  | .bytes b => p.kind = .cstring ∧ ∃ text, b = text ++ [0] ∧ text.length ≤ 16 ∧ 0 ∉ text
  | .cells xs => p.kind = .bufferI32 ∧ (xs.length : ℤ) ≤ maxBufferLen ∧
      (∀ x ∈ xs, p.lo ≤ x ∧ x ≤ p.hi) ∧
      match p.lengthParam with
      | some l => ∃ i, case.lookup l = some (.int i) ∧ (xs.length : ℤ) = max 0 i
      | none => 1 ≤ xs.length ∧ xs.length ≤ 8

/-- Exactly one value for each name, and what was drawn for it. -/
structure Coherent (ps : List Param) (case : Case) : Prop where
  nodup : (Dict.keys case).Nodup
  keys : ∀ k, k ∈ Dict.keys case ↔ k ∈ ps.map Param.name
  values : ∀ p ∈ ps, ∃ v, case.lookup p.name = some v ∧ CoherentValue case p v

/-! ### Strings -/

/-- A string has a few octets and then its only NUL. -/
def Spelt : Value → Prop
  | .bytes b => ∃ text, b = text ++ [0] ∧ text.length ≤ 16 ∧ 0 ∉ text
  | _ => True

/-- All strings of a case are spelt so. -/
def AllSpelt (case : Case) : Prop := ∀ e ∈ case, Spelt e.2

theorem AllSpelt.set {case : Case} (h : AllSpelt case) (k : PyStr) {v : Value} (hv : Spelt v) :
    AllSpelt (case.set k v) := by
  intro e he
  rcases Dict.mem_set he with he | rfl
  · exact h e he
  · exact hv

/-- The letters of a drawn string. -/
theorem zero_not_mem_letters (stream : Stream) (k n : ℕ) :
    (0 : UInt8) ∉ (randints stream k n 97 122).map fun i => UInt8.ofNat i.toNat := by
  intro hmem
  obtain ⟨i, hi, hzero⟩ := List.mem_map.mp hmem
  obtain ⟨j, -, rfl⟩ := List.mem_map.mp hi
  obtain ⟨hlo, hhi⟩ := randint_mem stream (k + j) (show (97 : ℤ) ≤ 122 by decide)
  have hval := congrArg UInt8.toNat hzero
  rw [UInt8.toNat_ofNat_of_lt' (by rw [UInt8.size]; omega)] at hval
  have hnil : (0 : UInt8).toNat = 0 := rfl
  omega

theorem AllSpelt.drawScalar {s : Draw} (h : AllSpelt s.case) (stream : Stream) (p : Param) :
    AllSpelt (drawScalar stream s p).case := by
  rcases hk : p.kind with - | - | -
  · simp only [ReSchema.drawScalar, hk]
    exact h.set _ trivial
  · simp only [ReSchema.drawScalar, hk]
    exact h
  · simp only [ReSchema.drawScalar, hk]
    exact h

theorem AllSpelt.drawMemory {s : Draw} (h : AllSpelt s.case) (stream : Stream) (p : Param) :
    AllSpelt (drawMemory stream s p).case := by
  rcases hk : p.kind with - | - | -
  · simp only [ReSchema.drawMemory, hk]
    exact h
  · simp only [ReSchema.drawMemory, hk]
    exact h.set _ trivial
  · simp only [ReSchema.drawMemory, hk]
    apply h.set
    refine ⟨_, rfl, ?_, zero_not_mem_letters stream _ _⟩
    have hlen := randint_mem stream s.next (show (0 : ℤ) ≤ 16 by decide)
    rw [List.length_map, length_randints]
    omega

/-- The strings of a drawn case. -/
theorem genCase_spelt (stream : Stream) (ps : List Param) (k : ℕ) :
    AllSpelt (genCase stream ps k).case := by
  have hscalars : ∀ (qs : List Param) (s : Draw), AllSpelt s.case →
      AllSpelt (qs.foldl (drawScalar stream) s).case := by
    intro qs
    induction qs with
    | nil => exact fun s h => h
    | cons q qs ih => exact fun s h => ih _ (h.drawScalar stream q)
  have hmemory : ∀ (qs : List Param) (s : Draw), AllSpelt s.case →
      AllSpelt (qs.foldl (drawMemory stream) s).case := by
    intro qs
    induction qs with
    | nil => exact fun s h => h
    | cons q qs ih => exact fun s h => ih _ (h.drawMemory stream q)
  exact hmemory ps _ (hscalars ps _ fun e he => absurd he List.not_mem_nil)

/-! ### Both passes -/

/-- The cells of a drawn buffer, whatever the place of the parameter that sizes it. -/
theorem Drawn.coherent_cells {ps : List Param} {case : Case} (d : Drawn ps case)
    (h : Accepted ps) {p : Param} (hp : p ∈ ps) {xs : List ℤ}
    (hdrawn : MemoryDrawn d.scalars p (.cells xs)) : CoherentValue case p (.cells xs) := by
  obtain ⟨hkind, hrange, default, hd1, hd8, hlen⟩ := hdrawn
  have hle := lengthOf_le h d hp hd8
  refine ⟨hkind, by rw [maxBufferLen]; omega, hrange, ?_⟩
  rcases hl : p.lengthParam with - | l
  · have hnone : lengthOf d.scalars none default = default := rfl
    rw [hl, hnone] at hlen
    show 1 ≤ xs.length ∧ xs.length ≤ 8
    omega
  · obtain ⟨q, hq, hqk, rfl⟩ := h.lengths p hp l hl
    obtain ⟨i, hi, -⟩ := d.lookup_scalar h hq hqk
    rw [hl, d.lengthOf_eq hq hqk hi] at hlen
    exact ⟨i, hi, by omega⟩

/-- **A drawn case is coherent.** -/
theorem Drawn.coherent {ps : List Param} {case : Case} (d : Drawn ps case) (h : Accepted ps)
    (hspelt : AllSpelt case) : Coherent ps case := by
  refine ⟨d.nodup h, (d.tame h).keys, fun p hp => ?_⟩
  by_cases hkind : p.kind = .i32
  · obtain ⟨i, hi, hrange⟩ := d.lookup_scalar h hp hkind
    exact ⟨_, hi, hkind, hrange⟩
  · obtain ⟨v, hv, hdrawn⟩ := d.lookup_memory h hp hkind
    refine ⟨v, hv, ?_⟩
    cases v with
    | int i => exact hdrawn.elim
    | bytes b => exact ⟨hdrawn.1, hspelt _ (Dict.mem_of_lookup_eq_some hv)⟩
    | cells xs => exact d.coherent_cells h hp hdrawn

/-! ### The check on cases -/

section Check

variable {F : Type}

/-- What was drawn for a parameter passes the check, in the form in which it travels. -/
theorem caseValueOk_wire {case : Case} {p : Param}
    (hrange : -(2 ^ 31) ≤ p.lo ∧ p.lo ≤ p.hi ∧ p.hi < 2 ^ 31) {v : Value}
    (hv : CoherentValue case p v) : caseValueOk p.kind (v.wire (F := F)) = true := by
  have hi32 : ∀ i : ℤ, p.lo ≤ i ∧ i ≤ p.hi →
      (decide (-(2 ^ 31) ≤ i) && decide (i < 2 ^ 31)) = true := by
    intro i hi
    rw [Bool.and_eq_true, decide_eq_true_eq, decide_eq_true_eq]
    omega
  cases v with
  | int i =>
      obtain ⟨hkind, hi⟩ := hv
      rw [hkind, caseValueOk]
      exact hi32 i hi
  | bytes b =>
      obtain ⟨hkind, text, rfl, hlen, -⟩ := hv
      have hhex : (Json.str (F := F) (hex (text ++ [0]))).str?.bind fromHex = some (text ++ [0]) :=
        fromHex_hex _
      rw [hkind, caseValueOk, Value.wire, hhex]
      simp [maxArg]
      omega
  | cells xs =>
      obtain ⟨hkind, hlen, hxs, -⟩ := hv
      have hint : (cellsJson xs : Json F).int? = none := rfl
      have harr : (cellsJson xs : Json F).arr? = some (xs.map Json.int) := rfl
      rw [hkind, caseValueOk, Value.wire, hint, harr]
      simp only [Option.any_none, Bool.false_or, Option.any_some, Bool.and_eq_true,
        decide_eq_true_eq, List.length_map, List.all_eq_true]
      refine ⟨hlen, fun x hx => ?_⟩
      obtain ⟨i, hi, rfl⟩ := List.mem_map.mp hx
      exact hi32 i (hxs i hi)

variable [Runtime F]

/-- **A coherent case is one that a worker may ask for.** -/
theorem caseOf_wire {ps : List Param} (h : Accepted ps) {case : Case} (hc : Coherent ps case) :
    caseOf (.obj (wire case)) ps = .ok (wire (F := F) case) := by
  rw [caseOf_ok]
  refine ⟨rfl, sameKeys_iff.mpr fun k => ?_, fun p hp => ?_⟩
  · have hkeys : Dict.keys (wire (F := F) case) = Dict.keys case := by
      rw [wire, Dict.keys, List.map_map]
      rfl
    rw [hkeys]
    exact hc.keys k
  · obtain ⟨v, hv, hcoherent⟩ := hc.values p hp
    exact ⟨v.wire, lookup_wire hv, caseValueOk_wire (h.range p hp) hcoherent⟩

/-- **Uniform draws are coherent and can be replayed.**  From every accepted declaration and every
stream as many cases are drawn as were asked for.  Each has exactly one value for each name, with
the numbers in their ranges, the buffers as long as the same case has it for the parameter that
sizes them, and the strings with their only NUL at the end; and each passes the check on the cases
of workers. -/
theorem genInputs_coherent {raw : Bytes} {ps : List Param} (h : paramsOf F raw = .ok ps)
    (stream : Stream) (k n : ℕ) : (genInputs stream ps k n).length = n ∧
      ∀ case ∈ genInputs stream ps k n, Coherent ps case ∧
        caseOf (.obj (wire (F := F) case)) ps = .ok (wire case) := by
  have ha := paramsOf_accepted h
  refine ⟨length_genInputs stream ps k n, fun case hcase => ?_⟩
  obtain ⟨j, rfl⟩ := mem_genInputs hcase
  obtain ⟨d, -⟩ := genCase_drawn stream ha j
  have hc := d.coherent ha (genCase_spelt stream ps j)
  exact ⟨hc, caseOf_wire ha hc⟩

end Check

/-- Two buffers, declared before the number that sizes both of them. -/
def sharedLength : List Param :=
  [⟨py "a", .bufferI32, some (py "n"), -5, 5, .void⟩, ⟨py "b", .bufferI32, some (py "n"), 0, 0, .i32⟩,
    ⟨py "n", .i32, none, -2, 32, .i32⟩]

theorem accepted_sharedLength : Accepted sharedLength where
  names := by decide
  nodup := by decide
  range := by decide
  lengths := by
    simp only [sharedLength, List.forall_mem_cons]
    refine ⟨?_, ?_, ?_, by simp⟩ <;> simp
  sizing := by decide

theorem genInputs_coherent_shared : (genInputs (fun k => k * k) sharedLength 0 3).length = 3 ∧
    ∀ case ∈ genInputs (fun k => k * k) sharedLength 0 3, Coherent sharedLength case ∧
      caseOf (.obj (wire (F := ZeroFloat) case)) sharedLength = .ok (wire case) :=
  genInputs_coherent (paramsOf_dumps accepted_sharedLength) _ 0 3

end ReSchema
