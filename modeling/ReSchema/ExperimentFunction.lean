/-
ReSchema/ExperimentFunction.lean

The operation `experiment_function` (`operations.py`).

A worker asks for one call of the original with parameters and a case of its
own.  `parse` is all that stands between its JSON and the host: it writes the
parameters as text and has the checker of the declarations read them, and checks
the case value by value.  `execute` then trusts what it gets.

`Spec` has the exceptions of the checks as texts; here they have their classes
too, because `parse` catches some of them and must let none through but
`ValueError`.  Where the interpreter gives up on a value is given (`Limits`).

  * `paramsE_agree`:  the checks with classes say what those with texts say;
  * `parse_cases`:    what `parse` returns, or raises;
  * `parse_decides`:  and what `execute` does with what it returns.
-/
import ReSchema.Py.Interpreter
import ReSchema.StackLayout

namespace ReSchema

open Py X86

/-! ### Exceptions -/

/-- The classes of exceptions. -/
inductive ExnClass
  | valueError
  | keyError
  | indexError
  | typeError
  | recursionError
  | notImplementedError
  | attributeError
  | overflowError
  deriving DecidableEq

/-- An exception, with what `str` makes of it. -/
structure Exn where
  cls : ExnClass
  text : PyStr

/-- `(LookupError, ValueError, TypeError, RecursionError)`. -/
def ExnClass.caught : ExnClass → Bool
  | .keyError | .indexError | .valueError | .typeError | .recursionError => true
  | _ => false

/-- The interpreter gives up on a value that nests too deep, or has a number of too many digits. -/
structure Fault where
  deep : Bool
  text : PyStr

def Fault.exn (f : Fault) : Exn := ⟨if f.deep then .recursionError else .valueError, f.text⟩

theorem Fault.exn_caught (f : Fault) : f.exn.cls.caught = true := by
  rw [exn]
  cases f.deep <;> rfl

/-- Where the interpreter gives up: `json.loads` on a text, and `json.dumps` and `repr` on a value.
A value that nests little and has readable integers can be written. -/
structure Limits (F : Type) [Runtime F] where
  loadsDeep : Bytes → Bool
  dumps : Json F → Option Fault
  repr : Json F → Option Fault
  dumps_shallow : ∀ v, v.Fits 100 → dumps v = none

section Params

variable {F : Type} [Runtime F] (lim : Limits F)

/-- `f"{v!r}"`. -/
def reprE (v : Json F) : Except Exn PyStr :=
  match lim.repr v with
  | some f => .error f.exn
  | none => .ok (pyRepr v)

/-- `json.dumps(v).encode()`. -/
def dumpsE (v : Json F) : Except Exn Bytes :=
  match lim.dumps v with
  | some f => .error f.exn
  | none => .ok (encode (dumps plain v))

/-- `v[i]`. -/
def itemE (v : Json F) (i : ℕ) : Except Exn (Json F) :=
  match v with
  | .arr xs => match xs[i]? with
      | some x => .ok x
      | none => .error ⟨.indexError, py "list index out of range"⟩
  | .str s => match s[i]? with
      | some c => .ok (.str [c])
      | none => .error ⟨.indexError, py "string index out of range"⟩
  | .obj _ => .error ⟨.keyError, natText i⟩
  | v => .error ⟨.typeError, py "'" ++ typeName v ++ py "' object is not subscriptable"⟩

/-- The key that a spec must have; the text of a `KeyError` is quoted. -/
def missingE (d : Dict (Json F)) (k : PyStr) : Exn :=
  match reprE lim (.obj d) with
  | .error e => e
  | .ok shown =>
      ⟨.keyError, reprStr F (py "param spec missing key " ++ reprStr F k ++ py ": " ++ shown)⟩

/-- The kind that is none. -/
def unknownKindE (d : Dict (Json F)) (kind : Json F) : Exn :=
  match reprE lim kind, reprE lim (.obj d) with
  | .error e, _ => e
  | .ok _, .error e => e
  | .ok k, .ok shown => ⟨.valueError, py "unknown param kind " ++ k ++ py " in " ++ shown ++
      py "; valid: ('i32', 'buffer_i32', 'cstring')"⟩

/-- `Param.from_json(d)`. -/
def fromJsonE (d : Dict (Json F)) : Except Exn (RawParam F) :=
  match d.lookup (py "name"), d.lookup (py "kind") with
  | none, _ => .error (missingE lim d (py "name"))
  | some _, none => .error (missingE lim d (py "kind"))
  | some name, some kind =>
      match kindOf kind with
      | none => .error (unknownKindE lim d kind)
      | some k =>
          let r := (d.lookup (py "range")).getD (.arr [.int (-100), .int 100])
          match itemE r 0, itemE r 1 with
          | .error e, _ => .error e
          | .ok _, .error e => .error e
          | .ok lo, .ok hi =>
              .ok ⟨name, k, (d.lookup (py "length_param")).getD .null, lo, hi,
                (d.lookup (py "ret")).getD (.str (py "i32"))⟩

/-- `_params(raw)`. -/
def paramsE (raw : Bytes) : Except Exn (List Param) :=
  match loads (F := F) raw with
  | none => .error (Fault.exn ⟨lim.loadsDeep raw, Runtime.loadsError F raw⟩)
  | some specs =>
      match specs.arr?.bind fun xs => xs.mapM Json.obj? with
      | none => .error ⟨.valueError, py "params.json must be a list of param objects"⟩
      | some ds =>
          match ds.mapM (fromJsonE lim) with
          | .error e => .error e
          | .ok rs => (checkParams rs).mapError fun text => ⟨.valueError, text⟩

/-- `_guard_arity(params)`. -/
def guardArity (params : List Param) : Except Exn Unit :=
  if registerCount < params.length then .error ⟨.notImplementedError, py "stack args unsupported"⟩
  else .ok ()

/-! ### The case -/

/-- The check on one value of a case. -/
def caseValueOk (kind : Kind) (v : Json F) : Bool :=
  let isI32 : Json F → Bool := fun x => x.int?.any fun i => -(2 ^ 31) ≤ i && i < 2 ^ 31
  match kind with
  | .i32 => isI32 v
  | .bufferI32 =>
      (v.int?.any fun n => 0 ≤ n && n ≤ maxBufferLen) ||
        (v.arr?.any fun xs => (xs.length : ℤ) ≤ maxBufferLen && xs.all isI32)
  | .cstring => (v.str?.bind fromHex).any fun b =>
      0 < b.length && b.length ≤ maxArg && b.getLast? == some 0

/-- `_case(case, params)`. -/
def caseOf (case : Json F) (params : List Param) : Except Exn (Dict (Json F)) :=
  match case.obj? with
  | none => .error ⟨.valueError, py "case needs exactly one value per param name"⟩
  | some d =>
      if !sameKeys d.keys (params.map Param.name) then
        .error ⟨.valueError, py "case needs exactly one value per param name"⟩
      else match params.find? fun p => !(d.lookup p.name).any (caseValueOk p.kind) with
        | some p => .error ⟨.valueError, py "case value for " ++ reprStr F p.name ++ py " (" ++
            p.kind.text ++ py ("): i32 in range, buffer_i32 a list or length of at most 32 cells, " ++
              "cstring NUL-terminated hex of at most 256 bytes")⟩
        | none => .ok d

/-! ### The operation -/

/-- What `parse` does within its `try`. -/
def parseParams (v : Json F) : Except Exn (List Param) := do
  let raw ← dumpsE lim v
  let params ← paramsE lim raw
  guardArity params
  return params

/-- The arguments in their canonical form. -/
def argumentsOf (params : List Param) (case : Dict (Json F)) : Json F :=
  .obj [(py "params", .arr (params.map Param.toJson)), (py "case", .obj case)]

/-- The `except` clauses of `parse`. -/
def handled (e : Exn) : Exn :=
  if e.cls = .notImplementedError then ⟨.valueError, py "at most 6 params"⟩
  else if e.cls.caught then ⟨.valueError, py "params: " ++ e.text⟩
  else e

/-- What is raised for arguments of another form. -/
def usageError : Exn :=
  ⟨.valueError, py "experiment_function takes exactly \x7b\"params\", \"case\"\x7d"⟩

/-- `ExperimentFunction.parse(arguments)`. -/
def parse (arguments : Json F) : Except Exn (Json F) :=
  match arguments.obj? with
  | none => .error usageError
  | some d =>
      if !sameKeys d.keys [py "params", py "case"] then .error usageError
      else match d.lookup (py "params"), d.lookup (py "case") with
        | some v, some case =>
            match parseParams lim v with
            | .error e => .error (handled e)
            | .ok params => (caseOf case params).map (argumentsOf params)
        | none, _ => .error ⟨.keyError, py "'params'"⟩
        | _, none => .error ⟨.keyError, py "'case'"⟩

/-- A parameter as the driver uses it, once its fields have their types. -/
def RawParam.typed (r : RawParam F) : Option Param := do
  let name ← r.name.str?
  let lengthParam ← (match r.lengthParam with
    | .null => some none
    | .str l => some (some l)
    | _ => none)
  let lo ← r.lo.int?
  let hi ← r.hi.int?
  let ret ← r.retOf
  return ⟨name, r.kind, lengthParam, lo, hi, ret⟩

/-- A value of a case as the driver gets it. -/
def caseValue (kind : Kind) (v : Json F) : Option Value :=
  match kind, v with
  | .cstring, .str s => (fromHex s).map .bytes
  | .i32, .int i => some (.int i)
  | .bufferI32, .int n => some (.int n)
  | .bufferI32, .arr xs => (xs.mapM Json.int?).map .cells
  | _, _ => none

/-- One parameter, read back. -/
def readParam (p : Json F) : Option Param := do
  let fields ← p.obj?
  let r ← (fromJsonE lim fields).toOption
  r.typed

/-- The entry of a parameter in the case. -/
def readEntry (values : Dict (Json F)) (p : Param) : Option (PyStr × Value) :=
  ((values.lookup p.name).bind (caseValue p.kind)).map fun value => (p.name, value)

/-- The parameters and the case that `execute` calls the original with, with `none` for an
exception. -/
def executeArgs (arguments : Json F) : Option (List Param × Case) := do
  let d ← arguments.obj?
  let ps ← (← d.lookup (py "params")).arr?
  let params ← ps.mapM (readParam lim)
  let values ← (← d.lookup (py "case")).obj?
  let case ← params.mapM (readEntry values)
  return (params, Dict.update [] case)

/-! ### The parameters -/

/-- A computation with classes of exceptions agrees with one that has the texts alone: the results
are the same, and what it raises is caught. -/
inductive Agree {α : Type} : Except Exn α → Except PyStr α → Prop
  | ok (a : α) : Agree (.ok a) (.ok a)
  | error (e : Exn) (text : PyStr) (caught : e.cls.caught = true) : Agree (.error e) (.error text)

section Agree

variable {α β : Type} {x : Except Exn α} {y : Except PyStr α}

theorem Agree.ok_iff (h : Agree x y) {a : α} : x = .ok a ↔ y = .ok a := by
  cases h with
  | ok b => rw [Except.ok.injEq, Except.ok.injEq]
  | error e text caught => exact iff_of_false (fun h => by cases h) fun h => by cases h

theorem Agree.caught (h : Agree x y) {e : Exn} (he : x = .error e) : e.cls.caught = true := by
  cases h with
  | ok a => cases he
  | error e' text caught =>
      cases he
      exact caught

theorem Agree.bind (h : Agree x y) {f : α → Except Exn β} {g : α → Except PyStr β}
    (hfg : ∀ a, Agree (f a) (g a)) : Agree (x >>= f) (y >>= g) := by
  cases h with
  | ok a => exact hfg a
  | error e text caught => exact .error e text caught

theorem Agree.mapM {f : α → Except Exn β} {g : α → Except PyStr β} (h : ∀ a, Agree (f a) (g a))
    (as : List α) : Agree (as.mapM f) (as.mapM g) := by
  induction as with
  | nil => exact .ok []
  | cons a as ih =>
      rw [List.mapM_cons, List.mapM_cons]
      apply (h a).bind
      intro b
      apply ih.bind
      exact fun bs => .ok (b :: bs)

end Agree

section Parameters

variable {lim}

omit [Runtime F] in
theorem itemE_agree (v : Json F) (i : ℕ) : Agree (itemE v i) (item v i) := by
  cases v with
  | arr xs =>
      rw [itemE, item]
      rcases xs[i]? with - | x
      · exact .error _ _ rfl
      · exact .ok x
  | str s =>
      rw [itemE, item]
      rcases s[i]? with - | c
      · exact .error _ _ rfl
      · exact .ok _
  | _ => exact .error _ _ rfl

theorem reprE_error {v : Json F} {e : Exn} (h : reprE lim v = .error e) : e.cls.caught = true := by
  rw [reprE] at h
  rcases hf : lim.repr v with - | f
  · rw [hf] at h
    cases h
  · rw [hf] at h
    cases h
    exact f.exn_caught

theorem missingE_caught (d : Dict (Json F)) (k : PyStr) : (missingE lim d k).cls.caught = true := by
  rw [missingE]
  rcases h : reprE lim (.obj d) with e | shown
  · exact reprE_error h
  · rfl

theorem unknownKindE_caught (d : Dict (Json F)) (kind : Json F) :
    (unknownKindE lim d kind).cls.caught = true := by
  rw [unknownKindE]
  rcases h : reprE lim kind with e | k
  · exact reprE_error h
  · rcases h' : reprE lim (.obj d) with e | shown
    · exact reprE_error h'
    · rfl

variable (lim) in
theorem fromJsonE_agree (d : Dict (Json F)) : Agree (fromJsonE lim d) (fromJson d) := by
  rw [fromJsonE, fromJson]
  rcases d.lookup (py "name") with - | name
  · exact .error _ _ (missingE_caught d _)
  rcases d.lookup (py "kind") with - | kind
  · exact .error _ _ (missingE_caught d _)
  rcases hk : kindOf kind with - | k
  · simp only [hk]
    exact .error _ _ (unknownKindE_caught d kind)
  simp only [hk]
  set r := (d.lookup (py "range")).getD (.arr [.int (-100), .int 100])
  have hlo := itemE_agree r 0
  have hhi := itemE_agree r 1
  generalize itemE r 0 = lo, item r 0 = lo' at hlo ⊢
  generalize itemE r 1 = hi, item r 1 = hi' at hhi ⊢
  cases hlo with
  | error e text caught => exact .error e text caught
  | ok lo =>
      cases hhi with
      | error e text caught => exact .error e text caught
      | ok hi => exact .ok _

variable (lim) in
/-- `_params` accepts what it accepts, and raises nothing that is not caught. -/
theorem paramsE_agree (raw : Bytes) : Agree (paramsE lim raw) (paramsOf F raw) := by
  rw [paramsE, paramsOf]
  rcases loads (F := F) raw with - | specs
  · exact .error _ _ (Fault.exn_caught _)
  rcases hds : (specs.arr?.bind fun xs => xs.mapM Json.obj?) with - | ds
  · simp only [hds]
    exact .error _ _ rfl
  simp only [hds]
  have hread := Agree.mapM (fromJsonE_agree lim) ds
  generalize ds.mapM (fromJsonE lim) = rs, ds.mapM fromJson = rs' at hread ⊢
  cases hread with
  | error e text caught => exact .error e text caught
  | ok rs =>
      show Agree ((checkParams rs).mapError _) (checkParams rs)
      rcases checkParams rs with text | params
      · exact .error _ _ rfl
      · exact .ok params

/-- What the `try` of `parse` returns: at most six parameters that are accepted. -/
theorem parseParams_ok {v : Json F} {ps : List Param} (h : parseParams lim v = .ok ps) :
    Accepted ps ∧ ps.length ≤ registerCount := by
  rw [parseParams] at h
  rcases hd : dumpsE lim v with e | raw
  · rw [hd] at h
    cases h
  rcases hp : paramsE lim raw with e | params
  · rw [hd] at h
    simp only [bind, Except.bind, hp] at h
    cases h
  rcases hg : guardArity params with e | ⟨⟩
  · rw [hd] at h
    simp only [bind, Except.bind, hp, hg] at h
    cases h
  rw [hd] at h
  simp only [bind, Except.bind, hp, hg] at h
  cases h
  refine ⟨paramsOf_accepted ((paramsE_agree lim raw).ok_iff.mp hp), ?_⟩
  rw [guardArity] at hg
  split_ifs at hg with hlength
  omega

/-- What it raises gets turned into a `ValueError`. -/
theorem parseParams_error {v : Json F} {e : Exn} (h : parseParams lim v = .error e) :
    e.cls = .notImplementedError ∨ e.cls.caught = true := by
  rw [parseParams] at h
  rcases hd : dumpsE lim v with e' | raw
  · rw [hd] at h
    cases h
    right
    rw [dumpsE] at hd
    rcases hf : lim.dumps v with - | f
    · rw [hf] at hd
      cases hd
    · rw [hf] at hd
      cases hd
      exact f.exn_caught
  rcases hp : paramsE lim raw with e' | params
  · rw [hd] at h
    simp only [bind, Except.bind, hp] at h
    cases h
    exact .inr ((paramsE_agree lim raw).caught hp)
  rw [hd] at h
  simp only [bind, Except.bind, hp, guardArity] at h
  split_ifs at h with hlength
  · cases h
    exact .inl rfl
  · cases h

omit [Runtime F] in
theorem handled_valueError {e : Exn} (h : e.cls = .notImplementedError ∨ e.cls.caught = true) :
    (handled e).cls = .valueError := by
  rw [handled]
  split_ifs with hni hcaught
  · rfl
  · rfl
  · exact absurd h (not_or.mpr ⟨hni, hcaught⟩)

/-- Accepted parameters come through unchanged. -/
theorem parseParams_toJson [LawfulRuntime F] {ps : List Param} (h : Accepted ps)
    (hlength : ps.length ≤ registerCount) :
    parseParams lim (.arr (ps.map Param.toJson)) = .ok ps := by
  have hfits : (Json.arr (ps.map (Param.toJson (F := F)))).Fits 100 := by
    refine ⟨by decide, fitsList_iff.mpr fun v hv => ?_⟩
    obtain ⟨p, hp, rfl⟩ := List.mem_map.mp hv
    exact p.toJson_fits h hp (by decide)
  have hdumps : dumpsE lim (.arr (ps.map Param.toJson)) =
      .ok (encode (dumps plain (.arr (ps.map (Param.toJson (F := F)))))) := by
    rw [dumpsE, lim.dumps_shallow _ hfits]
  have hparams := (paramsE_agree lim _).ok_iff.mpr (paramsOf_dumps h)
  have hguard : guardArity ps = .ok () := if_neg (by omega)
  rw [parseParams, hdumps]
  simp only [bind, Except.bind, hparams, hguard]
  rfl

end Parameters

/-! ### The values of a case -/

theorem caseOf_error {case : Json F} {ps : List Param} {e : Exn} (h : caseOf case ps = .error e) :
    e.cls = .valueError := by
  rw [caseOf] at h
  rcases hd : case.obj? with - | d
  · rw [hd] at h
    cases h
    rfl
  · simp only [hd] at h
    split_ifs at h
    · cases h
      rfl
    · split at h
      · cases h
        rfl
      · cases h

/-- What a case is that passes. -/
theorem caseOf_ok {case : Json F} {ps : List Param} {d : Dict (Json F)} :
    caseOf case ps = .ok d ↔ case = .obj d ∧ sameKeys d.keys (ps.map Param.name) = true ∧
      ∀ p ∈ ps, ∃ v, d.lookup p.name = some v ∧ caseValueOk p.kind v = true := by
  have hvalues : ∀ d : Dict (Json F),
      (ps.find? fun p => !(d.lookup p.name).any (caseValueOk p.kind)) = none ↔
        ∀ p ∈ ps, ∃ v, d.lookup p.name = some v ∧ caseValueOk p.kind v = true := by
    intro d
    rw [List.find?_eq_none]
    refine forall₂_congr fun p _ => ?_
    rw [Bool.not_eq_true', Bool.not_eq_false, Option.any_eq_true]
  constructor
  · intro h
    rw [caseOf] at h
    rcases hd : case.obj? with - | d'
    · simp [hd] at h
    simp only [hd] at h
    split_ifs at h with hkeys
    split at h
    · cases h
    · rename_i hfind
      cases h
      exact ⟨Json.obj?_eq_some.mp hd, by simpa using hkeys, (hvalues _).mp hfind⟩
  · rintro ⟨rfl, hkeys, hall⟩
    simp only [caseOf, Json.obj?, hkeys, Bool.not_true, Bool.false_eq_true, if_false,
      (hvalues d).mpr hall]

omit [Runtime F] in
/-- The driver gets a value that suits the kind, of at most 256 bytes. -/
theorem caseValue_suits {kind : Kind} {v : Json F} (h : caseValueOk kind v = true) :
    ∃ value, caseValue kind v = some value ∧ Suits kind value ∧
      ∀ data, marshal kind value = some (.pointer data) → data.length ≤ maxArg := by
  cases kind with
  | i32 =>
      obtain ⟨i, hi, -⟩ := (Option.any_eq_true _ _).mp h
      rw [Json.int?_eq_some.mp hi]
      exact ⟨.int i, rfl, .scalar i, fun data hdata => by cases hdata⟩
  | cstring =>
      obtain ⟨b, hb, hok⟩ := (Option.any_eq_true _ _).mp h
      obtain ⟨s, hs, hhex⟩ := Option.bind_eq_some_iff.mp hb
      rw [Json.str?_eq_some.mp hs]
      refine ⟨.bytes b, by rw [caseValue, hhex, Option.map_some], .string b, ?_⟩
      intro data hdata
      cases hdata
      simp only [Bool.and_eq_true, decide_eq_true_eq] at hok
      exact hok.1.2
  | bufferI32 =>
      rcases Bool.or_eq_true_iff.mp h with h | h
      · -- a length
        obtain ⟨n, hn, hok⟩ := (Option.any_eq_true _ _).mp h
        rw [Json.int?_eq_some.mp hn]
        simp only [Bool.and_eq_true, decide_eq_true_eq] at hok
        obtain ⟨m, rfl⟩ := Int.eq_ofNat_of_zero_le hok.1
        refine ⟨.int m, rfl, .output m, ?_⟩
        intro data hdata
        cases hdata
        have := hok.2
        rw [List.length_replicate, Int.toNat_natCast, maxArg]
        rw [maxBufferLen] at this
        omega
      · -- cells
        obtain ⟨xs, hxs, hok⟩ := (Option.any_eq_true _ _).mp h
        rw [Json.arr?_eq_some.mp hxs]
        simp only [Bool.and_eq_true, decide_eq_true_eq, List.all_eq_true] at hok
        obtain ⟨hlength, hall⟩ := hok
        have hints : ∀ x ∈ xs, ∃ i, x.int? = some i := by
          intro x hx
          obtain ⟨i, hi, -⟩ := (Option.any_eq_true _ _).mp (hall x hx)
          exact ⟨i, hi⟩
        obtain ⟨is, his⟩ := exists_mapM_some.mpr hints
        have hrel := mapM_some.mp his
        have hint32 : ∀ i ∈ is, -(2 ^ 31) ≤ i ∧ i < 2 ^ 31 := by
          intro i hi
          obtain ⟨x, hx, hxi⟩ := related_left hrel hi
          obtain ⟨j, hj, hrange⟩ := (Option.any_eq_true _ _).mp (hall x hx)
          rw [hxi, Option.some.injEq] at hj
          subst hj
          simpa only [Bool.and_eq_true, decide_eq_true_eq] using hrange
        refine ⟨.cells is, by rw [caseValue, his, Option.map_some], .cells is hint32, ?_⟩
        intro data hdata
        obtain ⟨bss, hbss, heq⟩ := Option.map_eq_some_iff.mp hdata
        rw [← Arg.pointer.inj heq, (unpackI32_pack hbss).2, ← hrel.length_eq, maxArg]
        rw [maxBufferLen] at hlength
        omega

/-! ### What `execute` is given -/

omit [Runtime F] in
theorem typed_raw (p : Param) : (p.raw : RawParam F).typed = some p := by
  obtain ⟨name, kind, lengthParam, lo, hi, ret⟩ := p
  have hret : (Param.raw ⟨name, kind, lengthParam, lo, hi, ret⟩ : RawParam F).retOf = some ret :=
    retOf_text ret rfl
  rw [RawParam.typed, hret]
  cases lengthParam <;> rfl

/-- A parameter is read back. -/
theorem readParam_toJson (lim : Limits F) (p : Param) :
    readParam lim (p.toJson : Json F) = some p := by
  have hread : fromJsonE lim p.fields = .ok p.raw :=
    (fromJsonE_agree lim _).ok_iff.mpr (fromJson_fields p)
  show (fromJsonE lim p.fields).toOption.bind RawParam.typed = some p
  rw [hread]
  exact typed_raw p

omit [Runtime F] in
/-- The values are read, one for each parameter under its name. -/
theorem readEntries_ok {ps : List Param} (hnodup : (ps.map Param.name).Nodup) {d : Dict (Json F)}
    (hd : ∀ p ∈ ps, ∃ v, d.lookup p.name = some v ∧ caseValueOk p.kind v = true) :
    ∃ values : Case, ps.mapM (readEntry d) = some values ∧ Dict.update [] values = values ∧
      ∀ p ∈ ps, ∃ value, values.lookup p.name = some value ∧ Suits p.kind value ∧
        ∀ data, marshal p.kind value = some (.pointer data) → data.length ≤ maxArg := by
  have hentry : ∀ p ∈ ps, ∃ e, readEntry d p = some e := by
    intro p hp
    obtain ⟨v, hv, hok⟩ := hd p hp
    obtain ⟨value, hvalue, -⟩ := caseValue_suits hok
    exact ⟨(p.name, value), by rw [readEntry, hv, Option.bind_some, hvalue, Option.map_some]⟩
  obtain ⟨values, hvalues⟩ := exists_mapM_some.mpr hentry
  have hspec : List.Forall₂ (fun p (e : PyStr × Value) => e.1 = p.name ∧ Suits p.kind e.2 ∧
      ∀ data, marshal p.kind e.2 = some (.pointer data) → data.length ≤ maxArg) ps values := by
    refine related_imp (mapM_some.mp hvalues) fun p hp e he => ?_
    obtain ⟨v, hv, hok⟩ := hd p hp
    obtain ⟨value, hvalue, hsuits, hsize⟩ := caseValue_suits hok
    rw [readEntry, hv, Option.bind_some, hvalue, Option.map_some, Option.some.injEq] at he
    subst he
    exact ⟨rfl, hsuits, hsize⟩
  have hkeys : Dict.keys values = ps.map Param.name :=
    (related_map hspec fun p e he => he.1.symm).symm
  refine ⟨values, hvalues, Dict.update_nil (hkeys ▸ hnodup), fun p hp => ?_⟩
  obtain ⟨e, he, hname, hsuits, hsize⟩ := related_right hspec hp
  refine ⟨e.2, ?_, hsuits, hsize⟩
  apply Dict.lookup_eq_some_of_mem (hkeys ▸ hnodup)
  rw [← hname]
  exact he

omit [Runtime F] in
theorem lookup_arguments (v case : Json F) :
    List.lookup (py "params") [(py "params", v), (py "case", case)] = some v ∧
      List.lookup (py "case") [(py "params", v), (py "case", case)] = some case := by
  have hne : (py "case" == py "params") = false := by decide
  exact ⟨List.lookup_cons_self, by rw [List.lookup_cons, hne]; exact List.lookup_cons_self⟩

/-- The parameters and the case of canonical arguments. -/
theorem executeArgs_argumentsOf (lim : Limits F) {ps : List Param} (hps : Accepted ps)
    {d : Dict (Json F)}
    (hd : ∀ p ∈ ps, ∃ v, d.lookup p.name = some v ∧ caseValueOk p.kind v = true) :
    ∃ values : Case, executeArgs lim (argumentsOf ps d) = some (ps, values) ∧
      ∀ p ∈ ps, ∃ value, values.lookup p.name = some value ∧ Suits p.kind value ∧
        ∀ data, marshal p.kind value = some (.pointer data) → data.length ≤ maxArg := by
  obtain ⟨values, hvalues, hupdate, hspec⟩ := readEntries_ok hps.nodup hd
  refine ⟨values, ?_, hspec⟩
  have hlookup := lookup_arguments (.arr (ps.map (Param.toJson (F := F)))) (.obj d)
  have hparams : (ps.map (Param.toJson (F := F))).mapM (readParam lim) = some ps := by
    rw [mapM_some, List.forall₂_map_left_iff, List.forall₂_same]
    exact fun p _ => readParam_toJson lim p
  rw [executeArgs, argumentsOf]
  simp only [Json.obj?, Option.bind_eq_bind, Option.bind_some, hlookup.1, hlookup.2, Json.arr?,
    hparams, hvalues, hupdate]
  rfl

/-! ### The whole operation -/

/-- **`parse` is idempotent** on what it returns. -/
theorem parse_argumentsOf [LawfulRuntime F] (lim : Limits F) {ps : List Param} (hps : Accepted ps)
    (hlength : ps.length ≤ registerCount) {d : Dict (Json F)}
    (hd : caseOf (.obj d) ps = .ok d) :
    parse lim (argumentsOf ps d) = .ok (argumentsOf ps d) := by
  have hlookup := lookup_arguments (.arr (ps.map (Param.toJson (F := F)))) (.obj d)
  have hkeys : sameKeys (Dict.keys [(py "params", Json.arr (ps.map (Param.toJson (F := F)))),
      (py "case", .obj d)]) [py "params", py "case"] = true := by
    show sameKeys [py "params", py "case"] [py "params", py "case"] = true
    decide
  rw [parse, argumentsOf]
  simp only [Json.obj?, hkeys, Bool.not_true, Bool.false_eq_true, if_false, hlookup.1, hlookup.2,
    parseParams_toJson hps hlength, hd]
  rfl

/-- What `parse` returns, or raises. -/
theorem parse_cases (lim : Limits F) (arguments : Json F) :
    (∃ e, parse lim arguments = .error e ∧ e.cls = .valueError) ∨
      ∃ ps d, parse lim arguments = .ok (argumentsOf ps d) ∧ Accepted ps ∧
        ps.length ≤ registerCount ∧ caseOf (.obj d) ps = .ok d := by
  rcases hobj : arguments.obj? with - | d
  · exact .inl ⟨usageError, by rw [parse, hobj], rfl⟩
  by_cases hkeys : sameKeys d.keys [py "params", py "case"] = true
  swap
  · exact .inl ⟨usageError, by rw [parse, hobj]; simp only [hkeys]; rfl, rfl⟩
  have hin : ∀ k ∈ [py "params", py "case"], ∃ v, d.lookup k = some v :=
    fun k hk => Dict.exists_lookup ((sameKeys_iff.mp hkeys k).mpr hk)
  obtain ⟨v, hv⟩ := hin (py "params") List.mem_cons_self
  obtain ⟨case, hcase⟩ := hin (py "case") (List.mem_cons_of_mem _ List.mem_cons_self)
  rcases hp : parseParams lim v with e | ps
  · refine .inl ⟨handled e, ?_, handled_valueError (parseParams_error hp)⟩
    rw [parse, hobj]
    simp only [hkeys, hv, hcase, hp]
    rfl
  obtain ⟨haccepted, hlength⟩ := parseParams_ok hp
  have hparse : parse lim arguments = (caseOf case ps).map (argumentsOf ps) := by
    rw [parse, hobj]
    simp only [hkeys, hv, hcase, hp]
    rfl
  rcases hc : caseOf case ps with e | d'
  · exact .inl ⟨e, by rw [hparse, hc]; rfl, caseOf_error hc⟩
  · refine .inr ⟨ps, d', by rw [hparse, hc]; rfl, haccepted, hlength, ?_⟩
    rw [← (caseOf_ok.mp hc).1]
    exact hc

end Params

/-! ### The call -/

section Call

variable {params : List Param} {case : Case} {args : List Arg}

/-- The values suit the parameters, and none takes up more than the longest argument. -/
def CaseBounded (params : List Param) (case : Case) : Prop :=
  ∀ p ∈ params, ∃ value, case.lookup p.name = some value ∧ Suits p.kind value ∧
    ∀ data, marshal p.kind value = some (.pointer data) → data.length ≤ maxArg

theorem CaseBounded.suits (h : CaseBounded params case) : CaseSuits params case := by
  intro p hp
  obtain ⟨value, hvalue, hsuits, -⟩ := h p hp
  exact ⟨value, hvalue, hsuits⟩

theorem CaseBounded.length_le (h : CaseBounded params case)
    (hargs : marshalCase params case = some args) {data : Bytes} (hdata : .pointer data ∈ args) :
    data.length ≤ maxArg := by
  obtain ⟨p, hp, hmarshal⟩ := related_left (mapM_some.mp hargs) hdata
  obtain ⟨value, hvalue, -, hsize⟩ := h p hp
  rw [hvalue] at hmarshal
  exact hsize data hmarshal

/-- The room of a call is that of six arguments at most. -/
theorem CaseBounded.stackUse_le (h : CaseBounded params case)
    (hargs : marshalCase params case = some args) (hlength : params.length ≤ registerCount) :
    stackUse args ≤ registerCount * maxArg + 8 := by
  have hroom : ∀ n ∈ args.map Arg.room, n ≤ maxArg := by
    intro n hn
    obtain ⟨arg, harg, rfl⟩ := List.mem_map.mp hn
    cases arg with
    | scalar i => exact Nat.zero_le _
    | pointer data =>
        have hsize := h.length_le hargs harg
        rw [maxArg] at hsize ⊢
        rw [Arg.room]
        omega
  have hsum := List.sum_le_card_nsmul _ maxArg hroom
  rw [List.length_map, smul_eq_mul, ← (mapM_some.mp hargs).length_eq] at hsum
  have hmul := Nat.mul_le_mul_right maxArg hlength
  rw [stackUse]
  omega

/-- The regions of a call: one at most for each argument, with the bytes of a pointer. -/
theorem regionsOf_spec (args : List Arg) (regvals : List ℤ) :
    (regionsOf args regvals).length ≤ args.length ∧
      ∀ r ∈ regionsOf args regvals, .pointer r.bytes ∈ args := by
  constructor
  · exact (List.length_filterMap_le _ _).trans (by rw [List.length_zip]; exact Nat.min_le_left _ _)
  · intro r hr
    obtain ⟨⟨arg, v⟩, hmem, harg⟩ := List.mem_filterMap.mp hr
    have hin := (List.of_mem_zip hmem).1
    cases arg with
    | scalar i => cases harg
    | pointer data =>
        cases harg
        exact hin

/-- A call comes to its end: its arguments are placed, and what is there afterwards is read. -/
theorem callOriginal_isSome {Os : Type} {em : Emulator Os} {program : Program} {addr : ℕ}
    (hcase : CaseSuits params case) (hlength : params.length ≤ registerCount)
    (hstack : StackMapped (em.system.mapped (em.boot program).os) em.stackAddress (stackUse args))
    {regvals : List ℤ} {entered : Vm Os} {ptrs : Dict ℤ}
    (henter : enter em addr params case (em.boot program) = some (entered, ptrs))
    (hlayout : CallLayout em.stackAddress args regvals entered.core)
    (hptrs : ∀ p ∈ params, ∀ data,
      (case.lookup p.name).bind (marshal p.kind) = some (.pointer data) →
        ∃ a, ptrs.lookup p.name = some a ∧ ⟨a, data⟩ ∈ regionsOf args regvals)
    (hkept : ∀ x, em.system.mapped (em.boot program).os x = true → em.system.mapped
      (run em.system program.code sentinel em.budget entered).1.os x = true) :
    (callOriginal em program addr params case).isSome = true := by
  rw [callOriginal, if_neg (by omega), Option.isSome_map, runCaseOn, henter]
  simp only [Option.bind_eq_bind, Option.bind_some]
  set r := run em.system program.code sentinel em.budget entered with hr
  have hregions : ∀ region ∈ regionsOf args regvals,
      MappedIn (em.system.mapped r.1.os) region.start region.stop := hlayout.regions_mapped hstack hkept
  obtain ⟨mem, hread, -⟩ := readArgs_regions r.1.core hcase hregions hptrs [] []
  -- a fault and a timeout read nothing back
  have hleave : ∃ trace, leave em params case ptrs r.1 r.2 = some trace := by
    rcases r.2 with - | e
    · rw [leave]
      split_ifs
      · exact ⟨_, rfl⟩
      · rw [hread]
        exact ⟨_, rfl⟩
    · exact ⟨_, rfl⟩
  obtain ⟨trace, htrace⟩ := hleave
  rw [htrace]
  rfl

end Call

/-- **Everything is decided in `parse`.**  It raises `ValueError` and nothing else, or returns
arguments that it would return again.  These are read back as parameters and a case, and a call with
them on an emulator with an aligned stack, of which the room of six longest arguments is mapped and
stays mapped, comes to its end; it writes six regions at most, of 256 bytes at most. -/
theorem parse_decides {F : Type} [Runtime F] [LawfulRuntime F] (lim : Limits F)
    (arguments : Json F) :
    (∃ e, parse lim arguments = .error e ∧ e.cls = .valueError) ∨
      ∃ a params case, parse lim arguments = .ok a ∧ parse lim a = .ok a ∧
        executeArgs lim a = some (params, case) ∧
        ∀ (Os : Type) (em : Emulator Os) (program : Program) (addr : ℕ),
          em.stackAddress % 16 = 0 →
          StackMapped (em.system.mapped (em.boot program).os) em.stackAddress
            (registerCount * maxArg + 8) →
          ∃ args regvals entered ptrs, marshalCase params case = some args ∧
            enter em addr params case (em.boot program) = some (entered, ptrs) ∧
            CallLayout em.stackAddress args regvals entered.core ∧
            (regionsOf args regvals).length ≤ 6 ∧
            (∀ r ∈ regionsOf args regvals, r.bytes.length ≤ 256) ∧
            ((∀ x, em.system.mapped (em.boot program).os x = true → em.system.mapped
                (run em.system program.code sentinel em.budget entered).1.os x = true) →
              (callOriginal em program addr params case).isSome = true) := by
  rcases parse_cases lim arguments with herror | ⟨params, d, hparse, haccepted, hlength, hcase⟩
  · exact .inl herror
  right
  obtain ⟨case, hexecute, hbounded⟩ :=
    executeArgs_argumentsOf lim haccepted (caseOf_ok.mp hcase).2.2
  refine ⟨argumentsOf params d, params, case, hparse,
    parse_argumentsOf lim haccepted hlength hcase, hexecute, ?_⟩
  intro Os em program addr hsp hstack
  have hbounded : CaseBounded params case := hbounded
  -- the bound on each argument makes the room on the stack enough for the call
  obtain ⟨args, hargs⟩ := hbounded.suits.marshals
  have hstack := hstack.mono (hbounded.stackUse_le hargs hlength)
  obtain ⟨regvals, core, ptrs, hsetUp, hlayout, hptrs⟩ :=
    setUp_layout hsp hlength hargs hstack addr (em.boot program).core
  have henter : enter em addr params case (em.boot program) =
      some ({ em.boot program with core := core }, ptrs) := by
    rw [enter, hsetUp, Option.map_some]
  obtain ⟨hcount, hregions⟩ := regionsOf_spec args regvals
  rw [← (mapM_some.mp hargs).length_eq] at hcount
  refine ⟨args, regvals, _, ptrs, hargs, henter, hlayout, hcount.trans hlength, ?_, ?_⟩
  · exact fun r hr => hbounded.length_le hargs (hregions r hr)
  · exact callOriginal_isSome hbounded.suits hlength hstack henter hlayout hptrs

/-- An interpreter that does not give up. -/
def unlimited : Limits ZeroFloat := ⟨fun _ => true, fun _ => none, fun _ => none, fun _ _ => rfl⟩

/-- A number that is declared without its range. -/
def numberParam : Param := ⟨py "c", .i32, none, -100, 100, .i32⟩

def numberFields : Dict (Json ZeroFloat) :=
  [(py "name", .str (py "c")), (py "kind", .str (py "i32"))]

/-- One call of a function of one number. -/
def charCall : Json ZeroFloat :=
  .obj [(py "params", .arr [.obj numberFields]), (py "case", .obj [(py "c", .int 1)])]

theorem accepted_numberParam : Accepted [numberParam] where
  names := by decide
  nodup := by decide
  range := by decide
  lengths := by simp [numberParam]
  sizing := by decide

theorem fits_numberFields {depth : ℕ} (h : 2 ≤ depth) :
    (Json.arr [.obj numberFields]).Fits depth :=
  ⟨by omega, ⟨by omega, trivial, trivial, trivial⟩, trivial⟩

theorem clean_numberFields : (Json.arr [.obj numberFields]).Clean :=
  ⟨⟨by decide, ⟨joinPairs_py (by decide), joinPairs_py (by decide)⟩,
    ⟨joinPairs_py (by decide), joinPairs_py (by decide)⟩, trivial⟩, trivial⟩

/-- The parameter is read with the range that it has by default. -/
theorem paramsOf_numberFields :
    paramsOf ZeroFloat (encode (dumps plain (.arr [.obj numberFields]))) = .ok [numberParam] := by
  have hread : fromJson numberFields = .ok (numberParam.raw : RawParam ZeroFloat) := by
    have hkind : kindOf (.str (py "i32") : Json ZeroFloat) = some .i32 := kindOf_text .i32
    simp [fromJson, numberFields, List.lookup_cons, hkind, item, Param.raw, numberParam, Ret.text]
  have hobj : ((Json.arr [.obj numberFields]).arr?.bind fun xs => xs.mapM Json.obj?) =
      some [numberFields] := rfl
  have hreads : [numberFields].mapM fromJson = .ok [(numberParam.raw : RawParam ZeroFloat)] :=
    mapM_ok.mpr (.cons hread .nil)
  have hloads : loads (encode (dumps plain (.arr [.obj numberFields]))) =
      some (Json.arr [.obj numberFields]) :=
    loads_dumps plain_blank (fits_numberFields (by decide)) clean_numberFields
  rw [paramsOf]
  simp only [hloads, hobj, hreads]
  exact checkParams_raw accepted_numberParam

/-- What is returned has the range. -/
theorem parse_charCall :
    parse unlimited charCall = .ok (argumentsOf [numberParam] [(py "c", .int 1)]) := by
  have hdumps : dumpsE unlimited (.arr [.obj numberFields]) =
      .ok (encode (dumps plain (.arr [.obj numberFields]))) := rfl
  have hparams := (paramsE_agree unlimited _).ok_iff.mpr paramsOf_numberFields
  have hguard : guardArity [numberParam] = .ok () := if_neg (by decide)
  have hparse : parseParams unlimited (.arr [.obj numberFields]) = .ok [numberParam] := by
    rw [parseParams, hdumps]
    simp only [bind, Except.bind, hparams, hguard]
    rfl
  have hlookup := lookup_arguments (.arr [.obj numberFields]) (.obj [(py "c", Json.int 1)])
  have hkeys : sameKeys (Dict.keys [(py "params", Json.arr [.obj numberFields]),
      (py "case", .obj [(py "c", .int 1)])]) [py "params", py "case"] = true := by
    show sameKeys [py "params", py "case"] [py "params", py "case"] = true
    decide
  rw [parse, charCall]
  simp only [Json.obj?, hkeys, Bool.not_true, Bool.false_eq_true, if_false, hlookup.1, hlookup.2,
    hparse]
  rfl

theorem parse_decides_char :
    ∃ a params case, parse unlimited charCall = .ok a ∧ parse unlimited a = .ok a ∧
      executeArgs unlimited a = some (params, case) ∧
      ∃ args regvals entered ptrs, marshalCase params case = some args ∧
        enter flatEmulator 0x401000 params case (flatEmulator.boot returnProgram) =
          some (entered, ptrs) ∧
        CallLayout 0x7fff0000 args regvals entered.core ∧
        (regionsOf args regvals).length ≤ 6 ∧
        (∀ r ∈ regionsOf args regvals, r.bytes.length ≤ 256) ∧
        (callOriginal flatEmulator returnProgram 0x401000 params case).isSome = true := by
  rcases parse_decides unlimited charCall with
    ⟨e, herror, -⟩ | ⟨a, params, case, hparse, hidem, hargs, hcall⟩
  · rw [parse_charCall] at herror
    cases herror
  obtain ⟨args, regvals, entered, ptrs, hmarshal, henter, hlayout, hsix, hsize, hend⟩ :=
    hcall Unit flatEmulator returnProgram 0x401000 (by decide)
      ⟨by decide, by decide, fun _ _ _ => rfl⟩
  exact ⟨a, params, case, hparse, hidem, hargs, args, regvals, entered, ptrs, hmarshal, henter,
    hlayout, hsix, hsize, hend fun _ _ => rfl⟩

end ReSchema
