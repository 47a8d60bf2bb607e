/-
ReSchema/AbiTemplate.lean

The starter file of a function task (`_abi_template` in `tasks.py`).

A worker finds in it a sketch of the parameter list, made of the facts that
the disassembly gave: as many scalars as the function seems to take, and for a
function that seems to return nothing a buffer or a string in the first place,
since a declaration without memory would be refused.

Main result: `sketch_accepted_iff`.  A pasted sketch is a declaration that the
checker accepts, but for functions of two and more arguments that seem to
return nothing.  There the second parameter sizes the first one, and its
default range is wider than a buffer may be long.
-/
import ReSchema.Disasm
import ReSchema.FunctionGate
import ReSchema.Py.Interpreter

namespace ReSchema

open Py

/-! ### The sketch -/

/-- The name of the `i`-th argument in a sketch. -/
def argName (i : ℕ) : PyStr := py "arg" ++ natText i

section Sketch

variable {F : Type}

/-- `default_range`. -/
def defaultRange : Json F := .arr [.int (-100), .int 100]

/-- An argument of the sketch. -/
def sketchScalar (i : ℕ) : Dict (Json F) :=
  [(py "name", .str (argName i)), (py "kind", .str (py "i32")), (py "range", defaultRange)]

/-- The first argument where nothing is returned: a string if there is no other one. -/
def sketchMemory (n : ℕ) : Dict (Json F) :=
  [(py "name", .str (py "arg0"))] ++
    (if 1 < n then [(py "kind", .str (py "buffer_i32")), (py "length_param", .str (py "arg1")),
      (py "range", defaultRange)]
    else [(py "kind", .str (py "cstring"))]) ++
    [(py "ret", .str (py "void"))]

/-- `params`. -/
def sketchDicts (facts : Facts) : List (Dict (Json F)) :=
  let params := (List.range facts.arityGuess).map sketchScalar
  if !facts.returnsHint ∧ params ≠ [] then sketchMemory facts.arityGuess :: params.drop 1
  else params

/-- `sketch`: what the worker pastes. -/
def abiSketch (F : Type) [Runtime F] (facts : Facts) : PyStr :=
  dumps plain (.arr ((sketchDicts (F := F) facts).map .obj))

/-- `_abi_template(func, facts)`. -/
def abiTemplate (F : Type) [Runtime F] (func : PyStr) (facts : Facts) : PyStr :=
  let retTy := if facts.returnsHint then py "int32_t" else py "void"
  let args := commaJoin ((List.range facts.arityGuess).map fun i => py "int32_t " ++ argName i)
  let sig := if args = [] then py "void" else args
  py "/* ReSchema ABI starter — " ++ func ++ py " (facts are " ++ facts.labeled ++
  py (")\n *\n" ++
    " * COMPOSE RULE: a helper used by ONE function MUST be declared `static` —\n" ++
    " * internal linkage means no cross-TU duplicate-symbol failures at compose time.\n" ++
    " */\n#include <stdint.h>\n#define RESCHEMA_FN __attribute__((sysv_abi, noinline))\n\n" ++
    "/* Param-spec JSON sketch (schema from the driver constants):\n" ++
    " *   kind: \"i32\" | \"buffer_i32\" | \"cstring\"\n" ++
    " *   ret: \"i32\" (default) | \"void\" — carried on params[0]; a void spec with NO\n" ++
    " *        memory-channel param (buffer_i32/cstring) is REJECTED " ++
    "(compares \x7b\x7d == \x7b\x7d).\n" ++
    " *   length_param: scalar param name carrying a buffer_i32's length\n" ++
    " *   range: i32 default [-100, 100]; cstring case values travel as hex\n *\n * ") ++
  abiSketch F facts ++
  py "\n *\n * Sketched signature: " ++ retTy ++ py " " ++ func ++ py "(" ++ sig ++
  py ") — arity " ++ natText facts.arityGuess ++ py ", returns " ++ retTy ++
  py ":\n * heuristic guess; verify via experiments before declaring. */\n\n"

/-- The template carries the sketch. -/
theorem abiSketch_infix (F : Type) [Runtime F] (func : PyStr) (facts : Facts) :
    abiSketch F facts <:+: abiTemplate F func facts := by
  rw [abiTemplate]
  -- the parts after the sketch come off one by one
  iterate 11 apply List.infix_append_of_infix_left
  exact List.infix_append_right

end Sketch

/-! ### What the sketch declares -/

/-- The parameters of a sketch for `n` arguments. -/
def sketchParams (n : ℕ) (void : Bool) : List Param :=
  (List.range n).map fun i =>
    if void ∧ i = 0 then
      if 1 < n then ⟨argName 0, .bufferI32, some (argName 1), -100, 100, .void⟩
      else ⟨argName 0, .cstring, none, -100, 100, .void⟩
    else ⟨argName i, .i32, none, -100, 100, .i32⟩

section Declares

variable {F : Type} [Runtime F]

theorem fromJson_sketchScalar (i : ℕ) :
    fromJson (sketchScalar i : Dict (Json F)) =
      .ok (Param.raw ⟨argName i, .i32, none, -100, 100, .i32⟩) := by
  have hkind : kindOf (.str (py "i32") : Json F) = some .i32 := kindOf_text .i32
  simp [fromJson, sketchScalar, defaultRange, List.lookup_cons, hkind, item, Param.raw, Ret.text]

theorem fromJson_sketchMemory (n : ℕ) :
    fromJson (sketchMemory n : Dict (Json F)) =
      .ok (Param.raw (if 1 < n then ⟨argName 0, .bufferI32, some (argName 1), -100, 100, .void⟩
        else ⟨argName 0, .cstring, none, -100, 100, .void⟩)) := by
  have hbuffer : kindOf (.str (py "buffer_i32") : Json F) = some .bufferI32 := kindOf_text .bufferI32
  have hcstring : kindOf (.str (py "cstring") : Json F) = some .cstring := kindOf_text .cstring
  have h0 : py "arg0" = argName 0 := rfl
  have h1 : py "arg1" = argName 1 := rfl
  by_cases hn : 1 < n
  · simp [fromJson, sketchMemory, hn, defaultRange, List.lookup_cons, hbuffer, item, Param.raw,
      Ret.text, h0, h1]
  · simp [fromJson, sketchMemory, hn, List.lookup_cons, hcstring, item, Param.raw, Ret.text, h0]

/-- The sketch is read as the parameters it is meant to declare. -/
theorem sketchDicts_read (facts : Facts) :
    (sketchDicts (F := F) facts).mapM fromJson =
      .ok ((sketchParams facts.arityGuess !facts.returnsHint).map Param.raw) := by
  rw [mapM_ok, List.forall₂_map_right_iff, sketchParams, List.forall₂_map_right_iff, sketchDicts]
  rcases hhint : facts.returnsHint with - | -
  · rcases hn : facts.arityGuess with - | n
    · simp
    · -- the first parameter stands for the memory
      have hrange : List.range (n + 1) = 0 :: (List.range n).map (· + 1) := List.range_succ_eq_map
      rw [hrange]
      simp only [List.map_cons, List.map_map, Bool.not_false, ne_eq, reduceCtorEq,
        not_false_eq_true, and_self, if_true, List.drop_succ_cons, List.drop_zero]
      refine .cons (fromJson_sketchMemory _) ?_
      rw [List.forall₂_map_left_iff, List.forall₂_map_right_iff, List.forall₂_same]
      intro i _
      exact fromJson_sketchScalar (i + 1)
  · simp only [Bool.not_true, Bool.false_eq_true, false_and, if_false]
    rw [List.forall₂_map_left_iff, List.forall₂_same]
    intro i _
    exact fromJson_sketchScalar i

omit [Runtime F] in
theorem sketchDicts_clean (facts : Facts) {n : ℕ} (hn : 3 ≤ n) :
    (Json.arr ((sketchDicts facts).map .obj) : Json F).Clean ∧
      (Json.arr ((sketchDicts facts).map .obj) : Json F).Fits n := by
  have hname : ∀ i, joinPairs (argName i) = argName i := fun i =>
    joinPairs_of_ascii (printable_append.mpr ⟨printable_py (by decide), printable_natText i⟩).isAscii
  have hrange : (defaultRange : Json F).Clean ∧ (defaultRange : Json F).Fits (n - 2) :=
    ⟨⟨trivial, trivial, trivial⟩, by omega, natAbs_lt_digits (by decide),
      natAbs_lt_digits (by decide), trivial⟩
  have hscalar : ∀ i, (Json.obj (sketchScalar i) : Json F).Clean ∧
      (Json.obj (sketchScalar i) : Json F).Fits (n - 1) := fun i =>
    ⟨⟨by simp [sketchScalar, Dict.keys], ⟨joinPairs_py (by decide), hname i⟩,
      ⟨joinPairs_py (by decide), joinPairs_py (by decide)⟩, ⟨joinPairs_py (by decide), hrange.1⟩,
      trivial⟩, by omega, trivial, trivial, hrange.2, trivial⟩
  have hmemory : (Json.obj (sketchMemory facts.arityGuess) : Json F).Clean ∧
      (Json.obj (sketchMemory facts.arityGuess) : Json F).Fits (n - 1) := by
    unfold sketchMemory
    split_ifs
    · exact ⟨⟨by simp [Dict.keys], ⟨joinPairs_py (by decide), joinPairs_py (by decide)⟩,
        ⟨joinPairs_py (by decide), joinPairs_py (by decide)⟩,
        ⟨joinPairs_py (by decide), joinPairs_py (by decide)⟩, ⟨joinPairs_py (by decide), hrange.1⟩,
        ⟨joinPairs_py (by decide), joinPairs_py (by decide)⟩, trivial⟩,
        by omega, trivial, trivial, trivial, hrange.2, trivial, trivial⟩
    · exact ⟨⟨by simp [Dict.keys], ⟨joinPairs_py (by decide), joinPairs_py (by decide)⟩,
        ⟨joinPairs_py (by decide), joinPairs_py (by decide)⟩,
        ⟨joinPairs_py (by decide), joinPairs_py (by decide)⟩, trivial⟩,
        by omega, trivial, trivial, trivial, trivial⟩
  -- a sketch with memory has it first, and scalars behind it
  have hall : ∀ d ∈ sketchDicts (F := F) facts, (Json.obj d).Clean ∧ (Json.obj d).Fits (n - 1) := by
    intro d hd
    unfold sketchDicts at hd
    dsimp only at hd
    split_ifs at hd
    · rcases List.mem_cons.mp hd with rfl | hd
      · exact hmemory
      · obtain ⟨i, -, rfl⟩ := List.mem_map.mp (List.mem_of_mem_drop hd)
        exact hscalar i
    · obtain ⟨i, -, rfl⟩ := List.mem_map.mp hd
      exact hscalar i
  refine ⟨cleanList_iff.mpr ?_, by omega, fitsList_iff.mpr ?_⟩
  · rintro _ hv
    obtain ⟨d, hd, rfl⟩ := List.mem_map.mp hv
    exact (hall d hd).1
  · rintro _ hv
    obtain ⟨d, hd, rfl⟩ := List.mem_map.mp hv
    exact (hall d hd).2

end Declares

/-! ### When the declaration is accepted -/

theorem famIdx_lt {name : PyStr} {g : ℕ} (h : famIdx name = some g) : g < registerCount :=
  (List.findIdx?_eq_some_iff_findIdx_eq.mp h).1

theorem directFams_lt {ii : List AsmInsn} {g : ℕ} (h : g ∈ (directFams ii).fam) :
    g < registerCount := by
  obtain ⟨o, -, ho⟩ := (mem_directFams.mp h).exists_mem
  cases o with
  | reg name read write => exact famIdx_lt ho.1
  | mem base read write =>
      obtain ⟨name, -, hname⟩ := Option.bind_eq_some_iff.mp ho.1
      exact famIdx_lt hname
  | imm value => exact ho.elim

theorem card_directFams_le (ii : List AsmInsn) : (directFams ii).fam.card ≤ registerCount := by
  have hsub : (directFams ii).fam ⊆ Finset.range registerCount := fun g hg =>
    Finset.mem_range.mpr (directFams_lt hg)
  exact (Finset.card_le_card hsub).trans_eq (Finset.card_range _)

/-- A guess is never above the number of registers. -/
theorem arityGuess_le (functions : Dict AsmFunction) (ii : List AsmInsn) :
    (factsOf functions ii).arityGuess ≤ registerCount := by
  have hsub : (directFams ii).fam ∪ passedThrough functions ii ⊆ Finset.range registerCount := by
    refine Finset.union_subset (fun g hg => Finset.mem_range.mpr (directFams_lt hg)) ?_
    unfold passedThrough
    split
    · exact Finset.empty_subset _
    · split
      · exact Finset.empty_subset _
      · intro g hg
        have hlt := Finset.mem_range.mp (Finset.mem_filter.mp hg).1
        exact Finset.mem_range.mpr (hlt.trans_le (card_directFams_le _))
  exact (Finset.card_le_card hsub).trans_eq (Finset.card_range _)

theorem mem_sketchParams {n : ℕ} {void : Bool} {p : Param} (h : p ∈ sketchParams n void) :
    (∃ i < n, p.name = argName i) ∧ p.lo = -100 ∧ p.hi = 100 ∧
      (void = false ∨ n ≤ 1 → p.lengthParam = none) := by
  obtain ⟨i, hi, rfl⟩ := List.mem_map.mp h
  have hi := List.mem_range.mp hi
  split_ifs with hvoid hn
  · rw [← hvoid.2]
    exact ⟨⟨i, hi, rfl⟩, rfl, rfl, fun hor => absurd hor (by simp [hvoid.1]; omega)⟩
  · rw [← hvoid.2]
    exact ⟨⟨i, hi, rfl⟩, rfl, rfl, fun _ => rfl⟩
  · exact ⟨⟨i, hi, rfl⟩, rfl, rfl, fun _ => rfl⟩

theorem map_name_sketchParams (n : ℕ) (void : Bool) :
    (sketchParams n void).map Param.name = (List.range n).map argName := by
  rw [sketchParams, List.map_map]
  refine List.map_congr_left fun i _ => ?_
  rw [Function.comp_apply]
  split_ifs with hvoid hn
  · rw [hvoid.2]
  · rw [hvoid.2]
  · rfl

/-- The parameters of a sketch pass the checks, unless the second one sizes the first. -/
theorem accepted_sketchParams_iff {n : ℕ} (hn : n ≤ registerCount) (void : Bool) :
    Accepted (sketchParams n void) ↔ void = false ∨ n ≤ 1 := by
  constructor
  · intro h
    by_contra hnot
    have hvoid : void = true := by simpa using fun hv => hnot (.inl hv)
    have hlt : 1 < n := by omega
    have hsizer : (⟨argName 1, .i32, none, -100, 100, .i32⟩ : Param) ∈ sketchParams n void :=
      List.mem_map.mpr ⟨1, List.mem_range.mpr hlt, by simp⟩
    have hbuffer : (⟨argName 0, .bufferI32, some (argName 1), -100, 100, .void⟩ : Param) ∈
        sketchParams n void :=
      List.mem_map.mpr ⟨0, List.mem_range.mpr (by omega), by simp [hvoid, hlt]⟩
    -- a parameter that sizes a buffer is bounded by the checker below 100
    have hmax := h.sizing _ hsizer (List.mem_filterMap.mpr ⟨_, hbuffer, rfl⟩)
    exact absurd hmax (by decide)
  · intro hsmall
    have hnone : ∀ p ∈ sketchParams n void, p.lengthParam = none := fun p hp =>
      (mem_sketchParams hp).2.2.2 hsmall
    refine ⟨fun p hp => ?_, ?_, fun p hp => ?_, fun p hp l hl => ?_, fun q _ hq => ?_⟩
    · obtain ⟨⟨i, hi, hname⟩, -⟩ := mem_sketchParams hp
      have hnames : ∀ i < registerCount, isName (argName i) = true := by decide
      rw [hname]
      exact hnames i (by omega)
    · rw [map_name_sketchParams]
      refine List.Nodup.map (fun i j hij => ?_) List.nodup_range
      exact natText_inj.mp (List.append_cancel_left hij)
    · obtain ⟨-, hlo, hhi, -⟩ := mem_sketchParams hp
      rw [hlo, hhi]
      decide
    · rw [hnone p hp] at hl
      cases hl
    · obtain ⟨p, hp, hl⟩ := List.mem_filterMap.mp hq
      rw [hnone p hp] at hl
      cases hl

/-- A sketch has memory where it returns nothing. -/
theorem scalarVoid_sketchParams (n : ℕ) (void : Bool) : scalarVoid (sketchParams n void) = false := by
  rcases n with - | n
  · rfl
  · have hrange : List.range (n + 1) = 0 :: (List.range n).map (· + 1) := List.range_succ_eq_map
    rw [sketchParams, hrange, List.map_cons]
    cases void with
    | false => simp [scalarVoid, returnsVoid]
    | true =>
        by_cases hn : 1 < n + 1
        · simp [scalarVoid, isChannel, hn]
        · simp [scalarVoid, isChannel, hn]

section Accepts

variable (F : Type) [Runtime F]

/-- The checker takes the text as a declaration, and neither floor refuses it. -/
def PassesDeclaration (sketch : PyStr) : Prop :=
  ∃ params, paramsOf F (encode sketch) = .ok params ∧ params.length ≤ registerCount ∧
    scalarVoid params = false

/-- A sketch of as many parameters as there are registers or fewer. -/
theorem passesDeclaration_iff [LawfulRuntime F] {facts : Facts} (hpos : 0 < facts.arityGuess)
    (hle : facts.arityGuess ≤ registerCount) :
    PassesDeclaration F (abiSketch F facts) ↔ facts.returnsHint = true ∨ facts.arityGuess = 1 := by
  have hdepth := LawfulRuntime.maxDepth_le (F := F)
  obtain ⟨hclean, hfits⟩ := sketchDicts_clean (F := F) facts (n := Runtime.maxDepth F) (by omega)
  have hobj : ((Json.arr ((sketchDicts (F := F) facts).map .obj)).arr?.bind fun xs =>
      xs.mapM Json.obj?) = some (sketchDicts facts) := by
    rw [Json.arr?, Option.bind_some, mapM_some, List.forall₂_map_left_iff, List.forall₂_same]
    exact fun p _ => rfl
  have hread : paramsOf F (encode (abiSketch F facts)) =
      checkParams ((sketchParams facts.arityGuess !facts.returnsHint).map (Param.raw (F := F))) := by
    simp only [paramsOf, abiSketch, loads_dumps plain_blank hfits hclean, hobj,
      sketchDicts_read facts]
  have hlength : (sketchParams facts.arityGuess !facts.returnsHint).length = facts.arityGuess := by
    simp [sketchParams]
  have hiff : PassesDeclaration F (abiSketch F facts) ↔
      Accepted (sketchParams facts.arityGuess !facts.returnsHint) := by
    rw [PassesDeclaration, hread]
    constructor
    · rintro ⟨params, hok, -⟩
      exact (checkParams_raw_iff.mp hok).2
    · intro haccepted
      exact ⟨_, checkParams_raw_iff.mpr ⟨rfl, haccepted⟩, by omega, scalarVoid_sketchParams _ _⟩
  rw [hiff, accepted_sketchParams_iff hle, Bool.not_eq_false']
  exact or_congr_right (by omega)

/-- **Pasted sketches.**  A sketch with parameters passes the declaration checks exactly when the
function seems to return a value or to take one argument only. -/
theorem sketch_accepted_iff [LawfulRuntime F] {functions : Dict AsmFunction} {name : PyStr}
    {facts : Facts} (hfacts : (name, facts) ∈ analyzeFunction functions)
    (hparams : 0 < facts.arityGuess) :
    PassesDeclaration F (abiSketch F facts) ↔ facts.returnsHint = true ∨ facts.arityGuess = 1 := by
  apply passesDeclaration_iff F hparams
  obtain ⟨f, -, hf⟩ := List.mem_map.mp hfacts
  rw [← (Prod.mk.inj hf).2]
  exact arityGuess_le functions f.2.insns

end Accepts

/-- `mov eax, edi; ret`. -/
def identityInsns : List AsmInsn :=
  [⟨py "mov", [.reg (py "eax") false true, .reg (py "edi") true false], false, false⟩,
    ⟨py "ret", [], false, true⟩]

theorem sketch_accepted_identity :
    PassesDeclaration ZeroFloat (abiSketch ZeroFloat (factsOf [] identityInsns)) := by
  have he : (py "identity", factsOf [(py "identity", ⟨0x401000, identityInsns⟩)] identityInsns) ∈
      analyzeFunction [(py "identity", ⟨0x401000, identityInsns⟩)] := List.mem_singleton_self _
  exact (sketch_accepted_iff ZeroFloat he (by decide)).mpr (.inl (by decide))

/-- `add dword ptr [rdi], esi; ret`. -/
def addInsns : List AsmInsn :=
  [⟨py "add", [.mem (some (py "rdi")) true true, .reg (py "esi") true false], false, false⟩,
    ⟨py "ret", [], false, true⟩]

/-- Its sketch has a buffer sized by a number up to 100, and is refused. -/
theorem sketch_not_always_accepted :
    ¬ ∀ (functions : Dict AsmFunction) (name : PyStr) (facts : Facts),
      (name, facts) ∈ analyzeFunction functions → 0 < facts.arityGuess →
      PassesDeclaration ZeroFloat (abiSketch ZeroFloat facts) := by
  intro h
  have he : (py "add", factsOf [(py "add", ⟨0x401000, addInsns⟩)] addInsns) ∈
      analyzeFunction [(py "add", ⟨0x401000, addInsns⟩)] := List.mem_singleton_self _
  have hpasses := (passesDeclaration_iff ZeroFloat (by decide) (by decide)).mp
    (h _ _ _ he (by decide))
  exact absurd hpasses (by decide)

end ReSchema
