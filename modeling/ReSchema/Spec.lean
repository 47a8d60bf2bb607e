/-
ReSchema/Spec.lean

The parameter list of a function task (`driver/spec.py` and `_params` in
`checks/function_fuzz.py`).

A worker declares the parameters of a function as JSON.  `fromJson` reads one
of them and fixes only its kind, so a `RawParam` still has JSON values in it;
`paramsOf` checks the rest, and a `Param` has the types that the draw relies
on.  An error is the text of the exception, which is what the worker is told.

`Accepted` is what the checks establish (`paramsOf_accepted`), and a list that
satisfies it is read back from its own `toJson` (`paramsOf_dumps`).
-/
import ReSchema.Py.Sizes

namespace ReSchema

open Py

/-! ### Parameters -/

/-- `KINDS`. -/
inductive Kind
  | i32
  | bufferI32
  | cstring
  deriving DecidableEq

def Kind.text : Kind → PyStr
  | .i32 => py "i32"
  | .bufferI32 => py "buffer_i32"
  | .cstring => py "cstring"

/-- What a function returns, carried on its first parameter. -/
inductive Ret
  | i32
  | void
  deriving DecidableEq

def Ret.text : Ret → PyStr
  | .i32 => py "i32"
  | .void => py "void"

/-- A parameter as `Param.from_json` returns it: only the kind is known to be one. -/
structure RawParam (F : Type) where
  name : Json F
  kind : Kind
  lengthParam : Json F
  lo : Json F
  hi : Json F
  ret : Json F

/-- A parameter with the types that the draw relies on. -/
structure Param where
  name : PyStr
  kind : Kind
  lengthParam : Option PyStr
  lo : ℤ
  hi : ℤ
  ret : Ret

instance : DecidableEq Param := fun p q =>
  decidable_of_iff (p.name = q.name ∧ p.kind = q.kind ∧ p.lengthParam = q.lengthParam ∧
    p.lo = q.lo ∧ p.hi = q.hi ∧ p.ret = q.ret) (by cases p; cases q; simp)

section Read

variable {F : Type} [Runtime F]

/-- The kind that a value names. -/
def kindOf (v : Json F) : Option Kind :=
  v.str?.bind fun s => [Kind.i32, .bufferI32, .cstring].find? fun k => k.text = s

/-- `type(v).__name__`. -/
def typeName : Json F → PyStr
  | .null => py "NoneType"
  | .bool _ => py "bool"
  | .int _ => py "int"
  | .float _ => py "float"
  | .str _ => py "str"
  | .arr _ => py "list"
  | .obj _ => py "dict"

/-- `v[i]`, or the text of the exception. -/
def item (v : Json F) (i : ℕ) : Except PyStr (Json F) :=
  match v with
  | .arr xs => match xs[i]? with
      | some x => .ok x
      | none => .error (py "list index out of range")
  | .str s => match s[i]? with
      | some c => .ok (.str [c])
      | none => .error (py "string index out of range")
  | .obj _ => .error (natText i)
  | v => .error (py "'" ++ typeName v ++ py "' object is not subscriptable")

/-- `Param.from_json(d)`. -/
def fromJson (d : Dict (Json F)) : Except PyStr (RawParam F) :=
  let missing : PyStr → PyStr := fun k =>
    reprStr F (py "param spec missing key " ++ reprStr F k ++ py ": " ++ pyRepr (.obj d))
  match d.lookup (py "name"), d.lookup (py "kind") with
  | none, _ => .error (missing (py "name"))
  | some _, none => .error (missing (py "kind"))
  | some name, some kind =>
      match kindOf kind with
      | none => .error (py "unknown param kind " ++ pyRepr kind ++ py " in " ++ pyRepr (.obj d) ++
          py "; valid: ('i32', 'buffer_i32', 'cstring')")
      | some kind =>
          let r := (d.lookup (py "range")).getD (.arr [.int (-100), .int 100])
          match item r 0, item r 1 with
          | .error e, _ => .error e
          | .ok _, .error e => .error e
          | .ok lo, .ok hi =>
              .ok ⟨name, kind, (d.lookup (py "length_param")).getD .null, lo, hi,
                (d.lookup (py "ret")).getD (.str (py "i32"))⟩

/-! ### Checks -/

/-- `MAX_BUFFER_LEN`. -/
def maxBufferLen : ℤ := 32

/-- `[A-Za-z_]`, and with the digits. -/
def isNameStart (c : CodePoint) : Bool :=
  (0x41 ≤ c.val && c.val ≤ 0x5a) || (0x61 ≤ c.val && c.val ≤ 0x7a) || c == ch '_'
def isNameChar (c : CodePoint) : Bool := isNameStart c || isDigit c

/-- `_NAME.fullmatch(s)`. -/
def isName : PyStr → Bool
  | [] => false
  | c :: r => isNameStart c && r.length ≤ 63 && r.all isNameChar

/-- The name of a parameter, if it is a C identifier. -/
def RawParam.identifier (r : RawParam F) : Option PyStr := r.name.str?.filter isName

/-- The bounds of a range of `i32`s. -/
def RawParam.bounds (r : RawParam F) : Option (ℤ × ℤ) := do
  let lo ← r.lo.int?
  let hi ← r.hi.int?
  if -(2 ^ 31) ≤ lo ∧ lo ≤ hi ∧ hi < 2 ^ 31 then some (lo, hi) else none

/-- The type that a function returns. -/
def RawParam.retOf (r : RawParam F) : Option Ret :=
  r.ret.str?.bind fun s => [Ret.i32, .void].find? fun t => t.text = s

/-- The name of the parameter that sizes this one, if it names one of the scalars. -/
def RawParam.sizedBy (r : RawParam F) (scalars : List PyStr) : Option (Option PyStr) :=
  match r.lengthParam with
  | .null => some none
  | .str s => if s ∈ scalars then some (some s) else none
  | _ => none

/-- One round of the loop over the parameters. -/
def checkParam (scalars : List PyStr) (name : PyStr) (r : RawParam F) : Except PyStr Param :=
  let fault : PyStr → PyStr := fun s => py "param " ++ reprStr F name ++ py ": " ++ s
  match r.bounds with
  | none => .error (fault (py "range [lo, hi] i32s"))
  | some (lo, hi) =>
      match r.retOf with
      | none => .error (fault (py "ret must be i32 or void"))
      | some ret =>
          match r.sizedBy scalars with
          | none => .error (fault (py "length_param must name an i32"))
          | some lengthParam => .ok ⟨name, r.kind, lengthParam, lo, hi, ret⟩

/-- The names that size some parameter. -/
def sizing (params : List Param) : List PyStr := params.filterMap Param.lengthParam

/-- The checks on a list of parameters, in the order of `_params`. -/
def checkParams (rs : List (RawParam F)) : Except PyStr (List Param) :=
  match rs.mapM RawParam.identifier with
  | none => .error (py "param names must be C identifiers of at most 64 chars")
  | some names =>
      if names.Nodup then
        let scalars := ((names.zip rs).filter fun p => p.2.kind = .i32).map Prod.fst
        match (names.zip rs).mapM fun p => checkParam scalars p.1 p.2 with
        | .error e => .error e
        | .ok params =>
            match params.find? fun p => p.name ∈ sizing params ∧ maxBufferLen < p.hi with
            | some p => .error (py "param " ++ reprStr F p.name ++
                py ": sizes a buffer, range must stay <= 32")
            | none => .ok params
      else .error (py "param names must be unique")

/-- `_params(raw)`, or the text of the exception. -/
def paramsOf (F : Type) [Runtime F] (raw : Bytes) : Except PyStr (List Param) :=
  match loads (F := F) raw with
  | none => .error (Runtime.loadsError F raw)
  | some specs =>
      match specs.arr?.bind fun xs => xs.mapM Json.obj? with
      | none => .error (py "params.json must be a list of param objects")
      | some ds =>
          match ds.mapM fromJson with
          | .error e => .error e
          | .ok rs => checkParams rs

end Read

/-! ### What is accepted -/

/-- What the checks establish. -/
structure Accepted (ps : List Param) : Prop where
  names : ∀ p ∈ ps, isName p.name = true
  nodup : (ps.map Param.name).Nodup
  range : ∀ p ∈ ps, -(2 ^ 31) ≤ p.lo ∧ p.lo ≤ p.hi ∧ p.hi < 2 ^ 31
  lengths : ∀ p ∈ ps, ∀ l, p.lengthParam = some l → ∃ q ∈ ps, q.kind = .i32 ∧ q.name = l
  sizing : ∀ q ∈ ps, q.name ∈ sizing ps → q.hi ≤ maxBufferLen

section Facts

variable {F : Type} [Runtime F]

omit [Runtime F] in
theorem RawParam.bounds_eq_some {r : RawParam F} {b : ℤ × ℤ} : r.bounds = some b ↔
    r.lo = .int b.1 ∧ r.hi = .int b.2 ∧ -(2 ^ 31) ≤ b.1 ∧ b.1 ≤ b.2 ∧ b.2 < 2 ^ 31 := by
  simp only [bounds, Option.bind_eq_bind, Option.bind_eq_some_iff, Json.int?_eq_some]
  constructor
  · rintro ⟨lo, hlo, hi, hhi, h⟩
    split_ifs at h with hb
    cases h
    exact ⟨hlo, hhi, hb⟩
  · rintro ⟨hlo, hhi, hb⟩
    exact ⟨b.1, hlo, b.2, hhi, if_pos hb⟩

/-- What one round of the loop establishes. -/
theorem checkParam_spec {scalars : List PyStr} {name : PyStr} {r : RawParam F} {p : Param}
    (h : checkParam scalars name r = .ok p) : p.name = name ∧ p.kind = r.kind ∧
      (-(2 ^ 31) ≤ p.lo ∧ p.lo ≤ p.hi ∧ p.hi < 2 ^ 31) ∧
      ∀ l, p.lengthParam = some l → l ∈ scalars := by
  rw [checkParam] at h
  rcases hb : r.bounds with - | ⟨lo, hi⟩
  · simp [hb] at h
  · rcases ht : r.retOf with - | ret
    · simp [hb, ht] at h
    · rcases hl : r.sizedBy scalars with - | lengthParam
      · simp [hb, ht, hl] at h
      · simp only [hb, ht, hl, Except.ok.injEq] at h
        subst h
        refine ⟨rfl, rfl, (RawParam.bounds_eq_some.mp hb).2.2, ?_⟩
        rintro l rfl
        unfold RawParam.sizedBy at hl
        split at hl
        · cases hl
        · split_ifs at hl with hmem
          cases hl
          exact hmem
        · cases hl

/-- The steps of the checks, where they come to an end: the names, each parameter by itself, and what
sizes a buffer. -/
theorem checkParams_ok {rs : List (RawParam F)} {ps : List Param} (h : checkParams rs = .ok ps) :
    ∃ names : List PyStr, List.Forall₂ (fun r n => r.identifier = some n) rs names ∧ names.Nodup ∧
      List.Forall₂ (fun a p => checkParam
        (((names.zip rs).filter fun a => a.2.kind = .i32).map Prod.fst) a.1 a.2 = .ok p)
        (names.zip rs) ps ∧
      ∀ p ∈ ps, p.name ∈ sizing ps → p.hi ≤ maxBufferLen := by
  rw [checkParams] at h
  rcases hnames : rs.mapM RawParam.identifier with - | names
  · simp [hnames] at h
  simp only [hnames] at h
  split_ifs at h with hnodup
  rcases hps : (names.zip rs).mapM fun p => checkParam
      (((names.zip rs).filter fun p => p.2.kind = .i32).map Prod.fst) p.1 p.2 with e | qs
  · simp [hps] at h
  simp only [hps] at h
  split at h
  · cases h
  rename_i hfind
  cases h
  refine ⟨names, mapM_some.mp hnames, hnodup, mapM_ok.mp hps, fun p hp hsizes => ?_⟩
  have hnot := List.find?_eq_none.mp hfind p hp
  simpa [hsizes] using hnot

/-- **What `_params` establishes.** -/
theorem checkParams_accepted {rs : List (RawParam F)} {ps : List Param}
    (h : checkParams rs = .ok ps) : Accepted ps := by
  obtain ⟨names, hall, hnodup, hchecked, hsizing⟩ := checkParams_ok h
  -- what one check says, for all parameters in their order
  have hspec : List.Forall₂ (fun (a : PyStr × RawParam F) p => p.name = a.1 ∧ p.kind = a.2.kind ∧
      (-(2 ^ 31) ≤ p.lo ∧ p.lo ≤ p.hi ∧ p.hi < 2 ^ 31) ∧ ∀ l, p.lengthParam = some l →
        l ∈ ((names.zip rs).filter fun p => p.2.kind = .i32).map Prod.fst) (names.zip rs) ps :=
    hchecked.imp fun _ _ => checkParam_spec
  have hmap : ps.map Param.name = names := by
    rw [← related_map hspec fun _ _ h => h.1.symm, List.map_fst_zip hall.length_eq.ge]
  refine ⟨fun p hp => ?_, by rwa [hmap], fun p hp => ?_, fun p hp l hl => ?_, hsizing⟩
  · have hmem : p.name ∈ names := hmap ▸ List.mem_map_of_mem hp
    obtain ⟨r, -, hr⟩ := related_left hall hmem
    exact (Option.filter_eq_some_iff.mp hr).2
  · obtain ⟨a, -, ha⟩ := related_left hspec hp
    exact ha.2.2.1
  · obtain ⟨a, -, ha⟩ := related_left hspec hp
    obtain ⟨b, hb, rfl⟩ := List.mem_map.mp (ha.2.2.2 l hl)
    obtain ⟨hb, hkind⟩ := List.mem_filter.mp hb
    obtain ⟨q, hq, hqb⟩ := related_right hspec hb
    exact ⟨q, hq, by rw [hqb.2.1]; simpa using hkind, hqb.1⟩

/-- The steps of `_params` on a text that it takes. -/
theorem paramsOf_ok {raw : Bytes} {ps : List Param} (h : paramsOf F raw = .ok ps) :
    ∃ (ds : List (Dict (Json F))) (rs : List (RawParam F)), loads raw = some (.arr (ds.map .obj)) ∧
      ds.mapM fromJson = .ok rs ∧ checkParams rs = .ok ps := by
  rw [paramsOf] at h
  rcases hl : loads (F := F) raw with - | specs
  · simp [hl] at h
  rcases hd : (specs.arr?.bind fun xs => xs.mapM Json.obj?) with - | ds
  · simp [hl, hd] at h
  rcases hr : ds.mapM fromJson with e | rs
  · simp [hl, hd, hr] at h
  simp only [hl, hd, hr] at h
  obtain ⟨xs, hxs, hobj⟩ := Option.bind_eq_some_iff.mp hd
  obtain rfl := Json.arr?_eq_some.mp hxs
  have heq : xs = ds.map .obj := by
    have hall := (mapM_some.mp hobj).imp fun x d hx => Json.obj?_eq_some.mp hx
    rw [← List.forall₂_eq_eq_eq, List.forall₂_map_right_iff]
    exact hall
  exact ⟨ds, rs, by rw [heq], hr, h⟩

theorem paramsOf_accepted {raw : Bytes} {ps : List Param} (h : paramsOf F raw = .ok ps) :
    Accepted ps := by
  obtain ⟨_, _, -, -, hcheck⟩ := paramsOf_ok h
  exact checkParams_accepted hcheck

/-! ### Round trip -/

/-- `asdict`: the fields of a parameter. -/
def Param.fields (p : Param) : Dict (Json F) :=
  [(py "name", .str p.name), (py "kind", .str p.kind.text),
    (py "length_param", match p.lengthParam with
      | none => .null
      | some l => .str l),
    (py "range", .arr [.int p.lo, .int p.hi]), (py "ret", .str p.ret.text)]

/-- `p.to_json()`. -/
def Param.toJson (p : Param) : Json F := .obj p.fields

/-- The parameter before its checks. -/
def Param.raw (p : Param) : RawParam F :=
  ⟨.str p.name, p.kind, match p.lengthParam with
    | none => .null
    | some l => .str l, .int p.lo, .int p.hi, .str p.ret.text⟩

omit [Runtime F] in
theorem kindOf_text (k : Kind) : kindOf (.str k.text : Json F) = some k := by
  cases k <;> simp [kindOf, Json.str?, Kind.text]

/-- **`from_json` inverts `to_json`.** -/
theorem fromJson_fields (p : Param) : fromJson p.fields = .ok (p.raw : RawParam F) := by
  simp [fromJson, Param.fields, List.lookup_cons, kindOf_text, item, Param.raw]

omit [Runtime F] in
theorem retOf_text (t : Ret) {r : RawParam F} (h : r.ret = .str t.text) : r.retOf = some t := by
  cases t <;> simp [RawParam.retOf, h, Json.str?, Ret.text]

theorem checkParam_raw {ps : List Param} (h : Accepted ps) {p : Param} (hp : p ∈ ps)
    {scalars : List PyStr} (hs : ∀ q ∈ ps, q.kind = .i32 → q.name ∈ scalars) :
    checkParam scalars p.name (p.raw : RawParam F) = .ok p := by
  have hbounds : (p.raw : RawParam F).bounds = some (p.lo, p.hi) :=
    RawParam.bounds_eq_some.mpr ⟨rfl, rfl, h.range p hp⟩
  have hret : (p.raw : RawParam F).retOf = some p.ret := retOf_text p.ret rfl
  have hsized : (p.raw : RawParam F).sizedBy scalars = some p.lengthParam := by
    rcases hl : p.lengthParam with - | l
    · simp [RawParam.sizedBy, Param.raw, hl]
    · obtain ⟨q, hq, hkind, rfl⟩ := h.lengths p hp l hl
      simp [RawParam.sizedBy, Param.raw, hl, hs q hq hkind]
  simp only [checkParam, hbounds, hret, hsized]
  rfl

theorem checkParams_raw {ps : List Param} (h : Accepted ps) :
    checkParams (ps.map (Param.raw (F := F))) = .ok ps := by
  have hnames : (ps.map (Param.raw (F := F))).mapM RawParam.identifier =
      some (ps.map Param.name) := by
    rw [mapM_some, List.forall₂_map_left_iff, List.forall₂_map_right_iff, List.forall₂_same]
    intro p hp
    simp [RawParam.identifier, Param.raw, Json.str?, h.names p hp]
  have hzip : (ps.map Param.name).zip (ps.map (Param.raw (F := F))) =
      ps.map fun p => (p.name, p.raw) := List.zip_map'
  have hchecked : (ps.map fun p => (p.name, p.raw (F := F))).mapM (fun a => checkParam
      (((ps.map fun p => (p.name, p.raw (F := F))).filter fun a => a.2.kind = .i32).map Prod.fst)
      a.1 a.2) = .ok ps := by
    rw [mapM_ok, List.forall₂_map_left_iff, List.forall₂_same]
    intro p hp
    refine checkParam_raw h hp fun q hq hkind => List.mem_map.mpr ⟨(q.name, q.raw), ?_, rfl⟩
    rw [List.mem_filter]
    exact ⟨List.mem_map_of_mem hq, decide_eq_true hkind⟩
  have hfind : (ps.find? fun p => p.name ∈ ReSchema.sizing ps ∧ maxBufferLen < p.hi) = none := by
    rw [List.find?_eq_none]
    intro q hq hbad
    simp only [decide_eq_true_eq] at hbad
    exact absurd (h.sizing q hq hbad.1) (by omega)
  simp only [checkParams, hnames, h.nodup, if_true, hzip, hchecked, hfind]

/-- The checks change nothing in a parameter that has the right types already. -/
theorem eq_of_checkParam_raw {scalars : List PyStr} {name : PyStr} {p q : Param}
    (h : checkParam scalars name (p.raw : RawParam F) = .ok q) (hname : name = p.name) : q = p := by
  subst hname
  rw [checkParam] at h
  rcases hb : (p.raw : RawParam F).bounds with - | b
  · simp [hb] at h
  have hret : (p.raw : RawParam F).retOf = some p.ret := retOf_text p.ret rfl
  rcases hl : (p.raw : RawParam F).sizedBy scalars with - | lengthParam
  · simp [hb, hret, hl] at h
  simp only [hb, hret, hl, Except.ok.injEq] at h
  have hlength : lengthParam = p.lengthParam := by
    rcases hp : p.lengthParam with - | l
    · simpa [RawParam.sizedBy, Param.raw, hp, eq_comm] using hl
    · simp only [RawParam.sizedBy, Param.raw, hp] at hl
      split_ifs at hl
      exact (Option.some.inj hl).symm
  obtain ⟨hlo, hhi, -⟩ := RawParam.bounds_eq_some.mp hb
  have hlo' : b.1 = p.lo := (Json.int.inj hlo).symm
  have hhi' : b.2 = p.hi := (Json.int.inj hhi).symm
  subst h hlength
  cases p
  cases b
  simp_all [Param.raw]

/-- **What the checks accept** of a list that has the right types already. -/
theorem checkParams_raw_iff {ps qs : List Param} :
    checkParams (ps.map (Param.raw (F := F))) = .ok qs ↔ qs = ps ∧ Accepted ps := by
  constructor
  · intro h
    have hqs := checkParams_accepted h
    have heq : qs = ps := by
      obtain ⟨names, hall, -, hrel, -⟩ := checkParams_ok h
      -- the names that are read are those that were written
      have hps : names = ps.map Param.name := by
        rw [List.forall₂_map_left_iff] at hall
        have := related_map (f := Param.name) (g := id) hall fun p n hn => by
          simp only [RawParam.identifier, Param.raw, Json.str?, Option.filter_some] at hn
          split_ifs at hn
          exact Option.some.inj hn
        rw [this, List.map_id]
      have hzip : names.zip (ps.map (Param.raw (F := F))) = ps.map fun p => (p.name, p.raw) := by
        rw [hps]
        exact List.zip_map'
      rw [hzip, List.forall₂_map_left_iff] at hrel
      have := related_map (f := id) (g := id) hrel fun p q hq => (eq_of_checkParam_raw hq rfl).symm
      simpa using this.symm
    exact ⟨heq, heq ▸ hqs⟩
  · rintro ⟨rfl, h⟩
    exact checkParams_raw h

omit [Runtime F] in
/-- The characters of a name are printable, and none is escaped. -/
theorem isNameChar_spec {c : CodePoint} (h : isNameChar c = true) :
    (0x20 ≤ c.val ∧ c.val < 0x7f) ∧ c ≠ ch '"' ∧ c ≠ ch '\\' := by
  simp only [isNameChar, isNameStart, isDigit, Bool.or_eq_true, Bool.and_eq_true,
    decide_eq_true_eq, beq_iff_eq] at h
  have hval : c.val ≠ 0x22 ∧ c.val ≠ 0x5c ∧ 0x20 ≤ c.val ∧ c.val < 0x7f := by
    rcases h with ((h | h) | rfl) | h
    · omega
    · omega
    · decide
    · omega
  refine ⟨⟨hval.2.2.1, hval.2.2.2⟩, ?_, ?_⟩
  · rintro rfl
    exact hval.1 rfl
  · rintro rfl
    exact hval.2.1 rfl

omit [Runtime F] in
theorem isNameChar_of_mem {s : PyStr} (h : isName s = true) {c : CodePoint} (hc : c ∈ s) :
    isNameChar c = true := by
  rcases s with - | ⟨d, r⟩
  · exact absurd hc List.not_mem_nil
  · simp only [isName, Bool.and_eq_true, List.all_eq_true] at h
    rcases List.mem_cons.mp hc with rfl | hc
    · rw [isNameChar, h.1.1, Bool.true_or]
    · exact h.2 c hc

omit [Runtime F] in
theorem isName_printable {s : PyStr} (h : isName s = true) : Printable s :=
  fun _ hc => (isNameChar_spec (isNameChar_of_mem h hc)).1

omit [Runtime F] in
theorem escapeChar_of_isNameChar {c : CodePoint} (h : isNameChar c = true) :
    escapeChar c = [c] := by
  obtain ⟨⟨hlo, hhi⟩, hquote, hslash⟩ := isNameChar_spec h
  have hn : c ≠ ch '\n' := by
    rintro rfl
    exact absurd hlo (by decide)
  have hr : c ≠ ch '\r' := by
    rintro rfl
    exact absurd hlo (by decide)
  have ht : c ≠ ch '\t' := by
    rintro rfl
    exact absurd hlo (by decide)
  rw [escapeChar, if_neg hquote, if_neg hslash, if_neg hn, if_neg hr, if_neg ht,
    if_neg (by omega), if_neg (by omega), if_pos ⟨hlo, by omega⟩]

omit [Runtime F] in
theorem Param.toJson_clean {ps : List Param} (h : Accepted ps) {p : Param} (hp : p ∈ ps) :
    (p.toJson : Json F).Clean := by
  have clean : ∀ {s : PyStr}, Printable s → joinPairs s = s := fun hs =>
    joinPairs_of_ascii hs.isAscii
  have hname := clean (isName_printable (h.names p hp))
  have hkind : joinPairs p.kind.text = p.kind.text := by
    cases p.kind <;> exact joinPairs_py (by decide)
  have hret : joinPairs p.ret.text = p.ret.text := by
    cases p.ret <;> exact joinPairs_py (by decide)
  have hlength : (match p.lengthParam with
      | none => .null
      | some l => .str l : Json F).Clean := by
    rcases hl : p.lengthParam with - | l
    · trivial
    · obtain ⟨q, hq, -, rfl⟩ := h.lengths p hp l hl
      exact clean (isName_printable (h.names q hq))
  exact ⟨by simp [Param.fields, Dict.keys], ⟨joinPairs_py (by decide), hname⟩,
    ⟨joinPairs_py (by decide), hkind⟩, ⟨joinPairs_py (by decide), hlength⟩,
    ⟨joinPairs_py (by decide), trivial, trivial, trivial⟩, ⟨joinPairs_py (by decide), hret⟩,
    trivial⟩

omit [Runtime F] in
theorem natAbs_lt_digits {i : ℤ} (h : i.natAbs < 2 ^ 33) : i.natAbs < 10 ^ maxStrDigits :=
  h.trans_le ((Nat.pow_le_pow_left (by decide : 2 ≤ 10) 33).trans
    (Nat.pow_le_pow_right (by decide) (by decide)))

omit [Runtime F] in
theorem natAbs_lt_digits64 {i : ℤ} (h : i.natAbs < 2 ^ 64) : i.natAbs < 10 ^ maxStrDigits :=
  h.trans_le ((Nat.pow_le_pow_left (by decide : 2 ≤ 10) 64).trans
    (Nat.pow_le_pow_right (by decide) (by decide)))

omit [Runtime F] in
theorem Param.toJson_fits {ps : List Param} (h : Accepted ps) {p : Param} (hp : p ∈ ps) {n : ℕ}
    (hn : 2 ≤ n) : (p.toJson : Json F).Fits n := by
  have hrange := h.range p hp
  have hlength : (match p.lengthParam with
      | none => .null
      | some l => .str l : Json F).Fits (n - 1) := by
    rcases p.lengthParam with - | l <;> trivial
  exact ⟨by omega, trivial, trivial, hlength, ⟨by omega, natAbs_lt_digits (by omega),
    natAbs_lt_digits (by omega), trivial⟩, trivial, trivial⟩

/-- **Every accepted list can be declared**: it is read back from its own text. -/
theorem paramsOf_dumps [LawfulRuntime F] {ps : List Param} (h : Accepted ps) :
    paramsOf F (encode (dumps plain (.arr (ps.map (Param.toJson (F := F)))))) = .ok ps := by
  have hdepth := LawfulRuntime.maxDepth_le (F := F)
  have hfits : (Json.arr (ps.map (Param.toJson (F := F)))).Fits (Runtime.maxDepth F) :=
    ⟨by omega, fitsList_iff.mpr fun v hv => by
      obtain ⟨p, hp, rfl⟩ := List.mem_map.mp hv
      exact p.toJson_fits h hp (by omega)⟩
  have hclean : (Json.arr (ps.map (Param.toJson (F := F)))).Clean :=
    cleanList_iff.mpr fun v hv => by
      obtain ⟨p, hp, rfl⟩ := List.mem_map.mp hv
      exact p.toJson_clean h hp
  have hobj : ((Json.arr (ps.map (Param.toJson (F := F)))).arr?.bind fun xs =>
      xs.mapM Json.obj?) = some (ps.map Param.fields) := by
    rw [Json.arr?, Option.bind_some, mapM_some, List.forall₂_map_left_iff,
      List.forall₂_map_right_iff, List.forall₂_same]
    exact fun p _ => rfl
  have hread : (ps.map (Param.fields (F := F))).mapM fromJson = .ok (ps.map Param.raw) := by
    rw [mapM_ok, List.forall₂_map_left_iff, List.forall₂_map_right_iff, List.forall₂_same]
    exact fun p _ => fromJson_fields p
  simp only [paramsOf, loads_dumps plain_blank hfits hclean, hobj, hread, checkParams_raw h]

end Facts

end ReSchema
