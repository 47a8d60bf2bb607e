/-
ReSchema/Calling.lean

The cases of a round and the original's answers to them (`driver/calling.py`
and `validate/scout.py`).

A case gives every parameter a value.  The declared cases are drawn uniformly
from the declared ranges; a slice at the front of the round is replaced by
scout cases, made of the constants that occur in the original's code.  Each
case is then marshalled into registers and memory and run.

The random stream is an arbitrary sequence of numbers, and so is what the
original does: `Original` answers the `k`-th call as it likes.  The constants
that `scrape_immediates` finds by disassembly are given too.
-/
import ReSchema.Spec
import ReSchema.Py.Random

namespace ReSchema

open Py

/-! ### Cases -/

/-- The value of an argument. -/
inductive Value
  | int (i : ℤ)
  | bytes (b : Bytes)
  | cells (xs : List ℤ)
  deriving DecidableEq

/-- One case: the values by the names of the parameters. -/
abbrev Case := Dict Value

/-! ### The uniform draw -/

/-- The case so far, and the number of the next call. -/
structure Draw where
  case : Case
  next : ℕ

/-- `case.get(p.length_param, default)`, where the parameter named is a scalar. -/
def lengthOf (case : Case) (lengthParam : Option PyStr) (default : ℤ) : ℤ :=
  match lengthParam.bind fun l => case.lookup l with
  | some (.int i) => i
  | _ => default

/-- One round of the first pass: scalars. -/
def drawScalar (stream : Stream) (s : Draw) (p : Param) : Draw :=
  match p.kind with
  | .i32 => ⟨s.case.set p.name (.int (randint stream s.next p.lo p.hi)), s.next + 1⟩
  | _ => s

/-- One round of the second pass: strings and buffers. -/
def drawMemory (stream : Stream) (s : Draw) (p : Param) : Draw :=
  match p.kind with
  | .i32 => s
  | .cstring =>
      let ln := (randint stream s.next 0 16).toNat
      let text := (randints stream (s.next + 1) ln 97 122).map fun i => UInt8.ofNat i.toNat
      ⟨s.case.set p.name (.bytes (text ++ [0])), s.next + 1 + ln⟩
  | .bufferI32 =>
      -- the default is drawn whether it is used or not
      let ln := (lengthOf s.case p.lengthParam (randint stream s.next 1 8)).toNat
      ⟨s.case.set p.name (.cells (randints stream (s.next + 1) ln p.lo p.hi)), s.next + 1 + ln⟩

/-- One case of `gen_inputs`. -/
def genCase (stream : Stream) (params : List Param) (k : ℕ) : Draw :=
  params.foldl (drawMemory stream) (params.foldl (drawScalar stream) ⟨[], k⟩)

/-- `gen_inputs(params, rng, n)`, from the `k`-th call of the generator on. -/
def genInputs (stream : Stream) (params : List Param) : ℕ → ℕ → List Case
  | _, 0 => []
  | k, n + 1 =>
      (genCase stream params k).case :: genInputs stream params (genCase stream params k).next n

/-! ### The scout slice -/

/-- `raw.to_bytes(4, "little")`. -/
def littleEndian (raw : ℕ) : Bytes :=
  [UInt8.ofNat raw, UInt8.ofNat (raw / 0x100), UInt8.ofNat (raw / 0x10000),
    UInt8.ofNat (raw / 0x1000000)]

/-- The numbers a constant may stand for. -/
def readings (raw : ℕ) : List ℤ :=
  if raw < 0x80000000 then [(raw : ℤ)] else [(raw : ℤ), raw - 0x100000000]

/-- The value of a scout case for one parameter. -/
def scoutValue (raw : ℕ) (needle : ℤ) : Kind → Value
  | .i32 => .int needle
  | .cstring => .bytes (littleEndian raw ++ [0])
  | .bufferI32 => .cells [needle]

/-- The names that size the buffers of a scout case; each of these has one cell. -/
def scoutLengths (params : List Param) : List PyStr :=
  params.filterMap fun p => if p.kind = .bufferI32 then p.lengthParam.filter (· ≠ []) else none

/-- One scout case: a reading of the constant for each parameter, lengths made coherent. -/
def scoutCase (params : List Param) (raw : ℕ) (needle : ℤ) : Case :=
  let case : Case := Dict.update [] (params.map fun p => (p.name, scoutValue raw needle p.kind))
  case.update (((scoutLengths params).filter (· ∈ case.keys)).map fun l => (l, .int 1))

/-- `scout_inputs(params, immediates)`. -/
def scoutInputs (params : List Param) (immediates : List ℕ) : List Case :=
  immediates.flatMap fun raw =>
    ((readings raw).map (scoutCase params raw)).filter (· ≠ [])

/-- `scout_slice_budget(n_fuzz)`. -/
def scoutSliceBudget (nFuzz : ℕ) : ℕ := min 16 (nFuzz / 4)

/-- `merge_scout_cases(uniform_cases, scout_cases, n_fuzz)`. -/
def mergeScoutCases {α : Type} (uniform scout : List α) (nFuzz : ℕ) : List α :=
  let k := min (min (scoutSliceBudget nFuzz) scout.length) nFuzz
  scout.take k ++ uniform.drop k

/-! ### Calls -/

/-- What an argument becomes: the value of a register, or a pointer to bytes. -/
inductive Arg
  | scalar (i : ℤ)
  | pointer (data : Bytes)

/-- `struct.pack("<i", i)`, with `none` for its error. -/
def packI32 (i : ℤ) : Option Bytes :=
  if -(2 ^ 31) ≤ i ∧ i < 2 ^ 31 then some (littleEndian (i % 2 ^ 32).toNat) else none

/-- `_marshal(p, val, write)`, with `none` for an exception.  A number stands for an output
buffer of that many cells. -/
def marshal (kind : Kind) (v : Value) : Option Arg :=
  match kind, v with
  | .i32, .int i => some (.scalar i)
  | .cstring, .bytes b => some (.pointer b)
  | .bufferI32, .cells xs => (xs.mapM packI32).map fun bs => .pointer bs.flatten
  | .bufferI32, .int n => some (.pointer (List.replicate (4 * n.toNat) 0))
  | _, _ => none

/-- The arguments of a case in the order of the parameters. -/
def marshalCase (params : List Param) (case : Case) : Option (List Arg) :=
  params.mapM fun p => (case.lookup p.name).bind (marshal p.kind)

/-- What a function left behind: the low half of `rax`, and the memory behind each pointer
by cells and by octets. -/
structure Final where
  ret : BitVec 32
  cells : PyStr → ℕ → BitVec 32
  chars : PyStr → ℕ → UInt8

/-- How a call ended: with an exception of the emulator, short of the return address, or there. -/
inductive CallOutcome
  | raised (memFault : Bool)
  | stopped
  | returned (final : Final)

/-- The original function, by the number of the call. -/
abbrev Original := ℕ → List Arg → CallOutcome

/-- A part of the memory that was read back. -/
inductive MemItem (F : Type)
  | bytes (b : Bytes)
  | json (v : Json F)

/-- The cells of a buffer as a value. -/
def cellsJson {F : Type} (xs : List ℤ) : Json F := .arr (xs.map .int)

/-- What is read back for one parameter. -/
def readItem {F : Type} (case : Case) (final : Final) (p : Param) : Option (MemItem F) :=
  match p.kind, case.lookup p.name with
  | .bufferI32, some (.cells xs) =>
      some (.json (cellsJson ((List.range xs.length).map fun i => (final.cells p.name i).toInt)))
  | .bufferI32, some (.int n) =>
      some (.json (cellsJson ((List.range n.toNat).map fun i => (final.cells p.name i).toInt)))
  | .cstring, some (.bytes b) => some (.bytes ((List.range b.length).map (final.chars p.name)))
  | _, _ => none

/-- `out["mem"]`. -/
def readBack {F : Type} (params : List Param) (case : Case) (final : Final) : Dict (MemItem F) :=
  params.filterMap fun p => (readItem case final p).map fun item => (p.name, item)

/-- The trace of a call: a fault, or the return value and the memory. -/
inductive Want (F : Type)
  | fault (memFault : Bool)
  | ran (ret : ℤ) (mem : Dict (MemItem F))

/-- `_run_case(ql, addr, params, case)` as the `k`-th call, with `none` for an exception of
the marshalling. -/
def runCase (F : Type) (original : Original) (params : List Param) (k : ℕ) (case : Case) :
    Option (Want F) :=
  (marshalCase params case).map fun args =>
    match original k args with
    | .raised memFault => .fault memFault
    | .stopped => .fault false
    | .returned final => .ran final.ret.toInt (readBack params case final)

/-- The loop of `batch_call_original` over the cases. -/
def runCases (F : Type) (original : Original) (params : List Param) :
    ℕ → List Case → Option (List (Want F))
  | _, [] => some []
  | k, c :: cs => do
      let w ← runCase F original params k c
      let ws ← runCases F original params (k + 1) cs
      return w :: ws

/-- `BAREGS`. -/
def registerCount : ℕ := 6

/-- `batch_call_original(binary, addr, params, cases)`; both ways of running are one here. -/
def batchCallOriginal (F : Type) (original : Original) (params : List Param) (cases : List Case) :
    Option (List (Want F)) :=
  if registerCount < params.length then none else runCases F original params 0 cases

/-! ### What is drawn -/

/-- The scalars and the other parameters of a list. -/
def scalarParams (params : List Param) : List Param := params.filter (·.kind = .i32)
def memoryParams (params : List Param) : List Param := params.filter (·.kind ≠ .i32)

/-- The entry that the first pass makes for a scalar with the number of its call. -/
def scalarEntry (stream : Stream) (e : Param × ℕ) : PyStr × Value :=
  (e.1.name, .int (randint stream e.2 e.1.lo e.1.hi))

/-- The first pass appends one entry for each scalar. -/
theorem drawScalars_spec (stream : Stream) {ps : List Param} (hnodup : (ps.map Param.name).Nodup)
    (s : Draw) (hfresh : ∀ p ∈ ps, p.name ∉ s.case.keys) :
    ps.foldl (drawScalar stream) s =
      ⟨s.case ++ ((scalarParams ps).zipIdx s.next).map (scalarEntry stream),
        s.next + (scalarParams ps).length⟩ := by
  induction ps generalizing s with
  | nil => simp [scalarParams]
  | cons p ps ih =>
      obtain ⟨hp, hnodup⟩ := List.nodup_cons.mp hnodup
      obtain ⟨hfp, hfresh⟩ := List.forall_mem_cons.mp hfresh
      -- the entry is new, so it is set at the end; the numbers follow the entries
      by_cases hkind : p.kind = .i32
      · have hstep : drawScalar stream s p =
            ⟨s.case ++ [(p.name, .int (randint stream s.next p.lo p.hi))], s.next + 1⟩ := by
          simp only [drawScalar, hkind, Dict.set_of_not_mem hfp]
        have hfresh' : ∀ q ∈ ps, q.name ∉ Dict.keys
            (s.case ++ [(p.name, Value.int (randint stream s.next p.lo p.hi))] : Case) := by
          intro q hq hmem
          simp only [Dict.keys, List.map_append, List.map_cons, List.map_nil, List.mem_append,
            List.mem_singleton] at hmem
          exact hmem.elim (hfresh q hq) fun heq => hp (heq ▸ List.mem_map_of_mem hq)
        rw [List.foldl_cons, hstep, ih hnodup _ hfresh']
        have hfilter : scalarParams (p :: ps) = p :: scalarParams ps := by
          simp [scalarParams, hkind]
        rw [hfilter, List.zipIdx_cons, List.map_cons, List.append_assoc, List.singleton_append,
          List.length_cons, Nat.add_right_comm]
        rfl
      · have hstep : drawScalar stream s p = s := by
          cases hk : p.kind <;> simp_all [drawScalar]
        rw [List.foldl_cons, hstep, ih hnodup s hfresh]
        simp [scalarParams, hkind]

/-- What the second pass draws for a parameter, when the scalars are `scalars`. -/
def MemoryDrawn (scalars : Case) (p : Param) : Value → Prop
  | .int _ => False
  | .bytes b => p.kind = .cstring ∧ b ≠ [] ∧ b.length ≤ 17
  | .cells xs => p.kind = .bufferI32 ∧ (∀ x ∈ xs, p.lo ≤ x ∧ x ≤ p.hi) ∧
      ∃ default, 1 ≤ default ∧ default ≤ 8 ∧
        xs.length = (lengthOf scalars p.lengthParam default).toNat

theorem drawMemory_spec (stream : Stream) (s : Draw) {p : Param} (hrange : p.lo ≤ p.hi)
    (hkind : p.kind ≠ .i32) (hfresh : p.name ∉ s.case.keys) :
    ∃ v n, drawMemory stream s p = ⟨s.case ++ [(p.name, v)], n⟩ ∧ s.next ≤ n ∧
      MemoryDrawn s.case p v := by
  cases hk : p.kind with
  | i32 => exact absurd hk hkind
  | cstring =>
      have hlen := randint_mem stream s.next (show (0 : ℤ) ≤ 16 by decide)
      have hstep := show drawMemory stream s p = _ by
        simp only [drawMemory, hk, Dict.set_of_not_mem hfresh]
        rfl
      refine ⟨_, _, hstep, by omega, hk, by simp, ?_⟩
      rw [List.length_append, List.length_map, length_randints, List.length_singleton]
      omega
  | bufferI32 =>
      have hdefault := randint_mem stream s.next (show (1 : ℤ) ≤ 8 by decide)
      have hstep := show drawMemory stream s p = _ by
        simp only [drawMemory, hk, Dict.set_of_not_mem hfresh]
        rfl
      refine ⟨_, _, hstep, by omega, hk, ?_, _, hdefault.1, hdefault.2,
        length_randints _ _ _ _ _⟩
      intro x hx
      obtain ⟨i, -, rfl⟩ := List.mem_map.mp hx
      exact randint_mem stream _ hrange

theorem lengthOf_append {scalars rest : Case} {lengthParam : Option PyStr}
    (h : ∀ l, lengthParam = some l → l ∈ scalars.keys) (default : ℤ) :
    lengthOf (scalars ++ rest) lengthParam default = lengthOf scalars lengthParam default := by
  rcases lengthParam with - | l
  · rfl
  · simp only [lengthOf, Option.bind_some, Dict.lookup_append_of_mem (h l rfl)]

/-- The second pass appends one entry for each parameter that is no scalar. -/
theorem drawMemories_spec (stream : Stream) {ps : List Param} (hnodup : (ps.map Param.name).Nodup)
    (hrange : ∀ p ∈ ps, p.lo ≤ p.hi) {scalars : Case}
    (hlength : ∀ p ∈ ps, ∀ l, p.lengthParam = some l → l ∈ scalars.keys) (s : Draw)
    (hcase : ∃ rest, s.case = scalars ++ rest)
    (hfresh : ∀ p ∈ ps, p.kind ≠ .i32 → p.name ∉ s.case.keys) :
    ∃ es n, ps.foldl (drawMemory stream) s = ⟨s.case ++ es, n⟩ ∧ s.next ≤ n ∧
      List.Forall₂ (fun p (e : PyStr × Value) => e.1 = p.name ∧ MemoryDrawn scalars p e.2)
        (memoryParams ps) es := by
  induction ps generalizing s with
  | nil => exact ⟨[], s.next, by simp, le_refl _, .nil⟩
  | cons p ps ih =>
      obtain ⟨hp, hnodup⟩ := List.nodup_cons.mp hnodup
      obtain ⟨hrp, hrange⟩ := List.forall_mem_cons.mp hrange
      obtain ⟨hlp, hlength⟩ := List.forall_mem_cons.mp hlength
      obtain ⟨hfp, hfresh⟩ := List.forall_mem_cons.mp hfresh
      -- the scalars stay in front of what is drawn, which is why a length is that of the first pass
      by_cases hkind : p.kind = .i32
      · have hstep : drawMemory stream s p = s := by simp only [drawMemory, hkind]
        have hfilter : memoryParams (p :: ps) = memoryParams ps := by simp [memoryParams, hkind]
        rw [List.foldl_cons, hstep, hfilter]
        exact ih hnodup hrange hlength s hcase hfresh
      · obtain ⟨v, n, hstep, hn, hv⟩ := drawMemory_spec stream s hrp hkind (hfp hkind)
        obtain ⟨rest, hrest⟩ := hcase
        have hfresh' : ∀ q ∈ ps, q.kind ≠ .i32 →
            q.name ∉ Dict.keys (s.case ++ [(p.name, v)] : Case) := by
          intro q hq hqk hmem
          simp only [Dict.keys, List.map_append, List.map_cons, List.map_nil, List.mem_append,
            List.mem_singleton] at hmem
          exact hmem.elim (hfresh q hq hqk) fun heq => hp (heq ▸ List.mem_map_of_mem hq)
        obtain ⟨es, m, hfold, hm, hes⟩ := ih hnodup hrange hlength ⟨s.case ++ [(p.name, v)], n⟩
          ⟨rest ++ [(p.name, v)], by rw [hrest, List.append_assoc]⟩ hfresh'
        have hfilter : memoryParams (p :: ps) = p :: memoryParams ps := by
          simp [memoryParams, hkind]
        have hv' : MemoryDrawn scalars p v := by
          cases v with
          | cells xs =>
              obtain ⟨hk, hx, d, hd1, hd8, hd⟩ := hv
              exact ⟨hk, hx, d, hd1, hd8, by rwa [hrest, lengthOf_append hlp] at hd⟩
          | _ => exact hv
        refine ⟨(p.name, v) :: es, m, ?_, by dsimp only at hm; omega, ?_⟩
        · rw [List.foldl_cons, hstep, hfold, List.append_assoc, List.singleton_append]
        · rw [hfilter]
          exact .cons ⟨rfl, hv'⟩ hes

/-- A drawn case: an entry for each scalar, then one for each other parameter. -/
structure Drawn (ps : List Param) (case : Case) where
  scalars : Case
  memory : Case
  case_eq : case = scalars ++ memory
  scalars_drawn : List.Forall₂ (fun p (e : PyStr × Value) => e.1 = p.name ∧
    ∃ i, e.2 = .int i ∧ p.lo ≤ i ∧ i ≤ p.hi) (scalarParams ps) scalars
  memory_drawn : List.Forall₂ (fun p (e : PyStr × Value) => e.1 = p.name ∧
    MemoryDrawn scalars p e.2) (memoryParams ps) memory

end ReSchema
