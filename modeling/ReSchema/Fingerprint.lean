/-
ReSchema/Fingerprint.lean

The fingerprint of a candidate (`ReSchemaDomain.normalize` in `domain.py`).

The duplicate guard takes a candidate for a repeat when it has the fingerprint
of an earlier one: its source without comments and white space, and behind it
what it declares, each file in canonical JSON behind a NUL.  The files are
joined without their names and lengths, and a file that is not JSON is taken as
it stands, so there are declarations that differ and are joined to one text.
`Confused` lists them, and `normalize_ne_iff` says that there are no others.
-/
import ReSchema.NormSource
import ReSchema.ProgramReplay
import ReSchema.Py.Interpreter
import ReSchema.Py.Sorted

namespace ReSchema

open Py

/-! ### `normalize` -/

section Normalize

variable (F : Type) [Runtime F]

/-- A declaration file in canonical JSON, or as it stands where it does not parse. -/
def canonicalPart (raw : Bytes) : Bytes :=
  match loads (F := F) raw with
  | some v => encode (dumpsSorted compact v)
  | none => raw

/-- The files that declare something, in the order of the fingerprint. -/
def declarationNames : List PyStr := [py "params.json", py "cases.json"]

/-- `norm_source` of the file `model.c`. -/
def sourceText (files : Dict Bytes) : PyStr :=
  normSource (decodeReplace ((files.lookup (py "model.c")).getD []))

/-- `ReSchemaDomain.normalize(candidate)`. -/
def normalize (candidate : Dict Bytes) : Bytes :=
  match candidateFiles F candidate with
  | .error _ => 1 :: (candidate.lookup (py "result.json")).getD []
  | .ok files =>
      let parts := declarationNames.filterMap fun n => (files.lookup n).map (canonicalPart F)
      List.intercalate [0] (encode (sourceText files) :: parts)

end Normalize

/-! ### What is declared -/

/-- A declaration file as it is read: a value with its keys in order, or what does not parse. -/
inductive Part (F : Type)
  | value (v : Json F)
  | raw (b : Bytes)

/-- What a candidate declares. -/
structure Declaration (F : Type) where
  params : Option (Part F)
  cases : Option (Part F)

section Read

variable {F : Type} [Runtime F]

/-- The file as it is read. -/
def readPart (raw : Bytes) : Part F :=
  match loads raw with
  | some v => .value v.sortKeys
  | none => .raw raw

def declaration (F : Type) [Runtime F] (files : Dict Bytes) : Declaration F :=
  ⟨(files.lookup (py "params.json")).map readPart, (files.lookup (py "cases.json")).map readPart⟩

/-- What stands in the fingerprint for a file. -/
def Part.text : Part F → Bytes
  | .value v => encode (dumps compact v)
  | .raw b => b

/-- The same part, but for the spelling of surrogate pairs. -/
def Part.Alike : Part F → Part F → Prop
  | .value v, .value w => v.joined = w.joined
  | .raw b, .raw c => b = c
  | _, _ => False

/-- What `readPart` returns. -/
def Part.Read : Part F → Prop
  | .value v => v.Fits (Runtime.maxDepth F)
  | .raw b => loads (F := F) b = none

/-- What stands behind the source. -/
def Declaration.text (d : Declaration F) : Bytes :=
  (d.params.toList ++ d.cases.toList).flatMap fun p => 0 :: p.text

/-- Both files are what is read of some bytes. -/
def Declaration.Read (d : Declaration F) : Prop :=
  ∀ p ∈ d.params.toList ++ d.cases.toList, p.Read

/-- **Declarations that are joined to one text.**  A value has no NUL in its text, so where the
parts are split in another place, a file that does not parse has one. -/
inductive Confused : Declaration F → Declaration F → Prop
  | params {p q : Part F} (h : p.Alike q) : Confused ⟨some p, none⟩ ⟨some q, none⟩
  | cases {p q : Part F} (h : p.Alike q) : Confused ⟨none, some p⟩ ⟨none, some q⟩
  | renamed {p q : Part F} (h : p.Alike q) : Confused ⟨some p, none⟩ ⟨none, some q⟩
  | both {p q p' q' : Part F} (h : p.Alike p') (h' : q.Alike q') :
      Confused ⟨some p, some q⟩ ⟨some p', some q'⟩
  | paramsSplit {p q : Part F} :
      Confused ⟨some (.raw (p.text ++ 0 :: q.text)), none⟩ ⟨some p, some q⟩
  | casesSplit {p q : Part F} :
      Confused ⟨none, some (.raw (p.text ++ 0 :: q.text))⟩ ⟨some p, some q⟩
  | shifted {p q : Part F} {b : Bytes} : Confused ⟨some (.raw (p.text ++ 0 :: b)), some q⟩
      ⟨some p, some (.raw (b ++ 0 :: q.text))⟩

theorem text_readPart (raw : Bytes) : (readPart raw : Part F).text = canonicalPart F raw := by
  rw [readPart, canonicalPart]
  cases loads (F := F) raw <;> rfl

theorem read_readPart (raw : Bytes) : (readPart raw : Part F).Read := by
  rw [readPart]
  rcases hv : loads (F := F) raw with - | v
  · exact hv
  · exact sortKeys_fits (loads_fits hv)

theorem read_declaration (files : Dict Bytes) : (declaration F files).Read := by
  intro p hp
  rcases List.mem_append.mp hp with hp | hp
  all_goals
    obtain ⟨raw, -, rfl⟩ := Option.map_eq_some_iff.mp (Option.mem_toList.mp hp)
    exact read_readPart raw

theorem text_declaration (files : Dict Bytes) : (declaration F files).text =
    ((files.lookup (py "params.json")).toList ++ (files.lookup (py "cases.json")).toList).flatMap
      fun raw => 0 :: canonicalPart F raw := by
  rw [Declaration.text, declaration]
  rcases files.lookup (py "params.json") with - | raw
  all_goals rcases files.lookup (py "cases.json") with - | raw'
  all_goals simp [text_readPart]

/-- **The fingerprint** of a well-formed candidate. -/
theorem normalize_eq {candidate files : Dict Bytes} (h : candidateFiles F candidate = .ok files) :
    normalize F candidate = encode (sourceText files) ++ (declaration F files).text := by
  have hjoin : ∀ (s : Bytes) (parts : List Bytes),
      List.intercalate [0] (s :: parts) = s ++ parts.flatMap fun t => 0 :: t := by
    intro s parts
    induction parts generalizing s with
    | nil => simp [List.intercalate]
    | cons t parts ih =>
        rw [List.intercalate_cons_cons, ih, List.flatMap_cons]
        simp
  have hparts : (declarationNames.filterMap fun n => (files.lookup n).map (canonicalPart F)) =
      ((files.lookup (py "params.json")).toList ++
        (files.lookup (py "cases.json")).toList).map (canonicalPart F) := by
    simp only [declarationNames, List.filterMap_cons, List.filterMap_nil]
    rcases files.lookup (py "params.json") with - | raw
    all_goals rcases files.lookup (py "cases.json") with - | raw'
    all_goals rfl
  rw [normalize, h]
  show List.intercalate [0] (_ :: _) = _
  rw [hjoin, hparts, List.flatMap_map, text_declaration]

/-! ### What the text determines -/

variable [LawfulRuntime F]

theorem zero_not_mem_text (v : Json F) : (0 : UInt8) ∉ (Part.value v).text :=
  zero_not_mem_encode (isAscii_render compact_blank v 0)

/-- **A part is determined by its text**, but for the spelling of surrogate pairs. -/
theorem Part.text_eq_iff {p q : Part F} (hp : p.Read) (hq : q.Read) :
    p.text = q.text ↔ p.Alike q := by
  -- what does not parse is not the text of a value
  have hmixed : ∀ {v : Json F} {b : Bytes}, (Part.value v).Read → (Part.raw b : Part F).Read →
      (Part.value v).text ≠ b := by
    rintro v b hv hb rfl
    have hread := loads_dumps_joined compact_blank hv
    rw [Part.Read, Part.text, hread] at hb
    cases hb
  cases p with
  | value v =>
      cases q with
      | value w =>
          refine Iff.trans ⟨?_, fun h => congrArg encode h⟩ (dumps_eq_iff compact_blank hp hq)
          exact encode_inj (isAscii_render compact_blank v 0) (isAscii_render compact_blank w 0)
      | raw b => exact iff_of_false (hmixed hp hq) id
  | raw b =>
      cases q with
      | value w => exact iff_of_false (hmixed hq hp).symm id
      | raw c => exact Iff.rfl

omit [Runtime F] [LawfulRuntime F] in
theorem Part.Alike.symm {p q : Part F} (h : p.Alike q) : q.Alike p := by
  cases p <;> cases q <;> first | exact Eq.symm h | exact h.elim

/-- A part whose text contains a NUL does not parse. -/
theorem Part.eq_raw {p : Part F} {b c : Bytes} (h : p.text = b ++ 0 :: c) :
    p = .raw (b ++ 0 :: c) := by
  cases p with
  | value v =>
      refine absurd ?_ (zero_not_mem_text v)
      rw [h]
      simp
  | raw d => exact congrArg Part.raw h

/-- Two pairs of parts with one text are split in one place, or one of them has a NUL before it. -/
theorem pair_cases {p q p' q' : Part F} (hp : p.Read) (hq : q.Read) (hp' : p'.Read)
    (hq' : q'.Read) (h : p.text ++ 0 :: q.text = p'.text ++ 0 :: q'.text) :
    (p.Alike p' ∧ q.Alike q') ∨
      (∃ b, p = .raw (p'.text ++ 0 :: b) ∧ q' = .raw (b ++ 0 :: q.text)) ∨
      ∃ b, p' = .raw (p.text ++ 0 :: b) ∧ q = .raw (b ++ 0 :: q'.text) := by
  have same : ∀ {r s t u : Bytes}, r = s → (0 : UInt8) :: t = 0 :: u → r = s ∧ t = u :=
    fun h h' => ⟨h, (List.cons.inj h').2⟩
  have split : ∀ {r s t u : Bytes} {a : UInt8} {x : Bytes}, s = r ++ a :: x →
      (0 : UInt8) :: t = (a :: x) ++ 0 :: u → s = r ++ 0 :: x ∧ t = x ++ 0 :: u := by
    rintro r s t u a x rfl h'
    obtain ⟨rfl, rfl⟩ := List.cons.inj h'
    exact ⟨rfl, rfl⟩
  rcases List.append_eq_append_iff.mp h with ⟨x, hx, hrest⟩ | ⟨x, hx, hrest⟩
  · rcases x with - | ⟨a, x⟩
    · rw [List.append_nil] at hx
      obtain ⟨h1, h2⟩ := same hx.symm hrest
      exact .inl ⟨(Part.text_eq_iff hp hp').mp h1, (Part.text_eq_iff hq hq').mp h2⟩
    · obtain ⟨h1, h2⟩ := split hx hrest
      exact .inr (.inr ⟨x, Part.eq_raw h1, Part.eq_raw h2⟩)
  · rcases x with - | ⟨a, x⟩
    · rw [List.append_nil] at hx
      obtain ⟨h1, h2⟩ := same hx hrest.symm
      exact .inl ⟨(Part.text_eq_iff hp hp').mp h1, (Part.text_eq_iff hq hq').mp h2⟩
    · obtain ⟨h1, h2⟩ := split hx hrest
      exact .inr (.inl ⟨x, Part.eq_raw h1, Part.eq_raw h2⟩)

theorem Confused.text_eq {d e : Declaration F} (hd : d.Read) (he : e.Read) (h : Confused d e) :
    d.text = e.text := by
  have htext : ∀ {p q : Part F}, p ∈ d.params.toList ++ d.cases.toList →
      q ∈ e.params.toList ++ e.cases.toList → p.Alike q → p.text = q.text :=
    fun hp hq h => (Part.text_eq_iff (hd _ hp) (he _ hq)).mpr h
  cases h with
  | params h => simp [Declaration.text, htext (by simp) (by simp) h]
  | cases h => simp [Declaration.text, htext (by simp) (by simp) h]
  | renamed h => simp [Declaration.text, htext (by simp) (by simp) h]
  | both h h' => simp [Declaration.text, htext (by simp) (by simp) h, htext (by simp) (by simp) h']
  | paramsSplit => simp [Declaration.text, Part.text]
  | casesSplit => simp [Declaration.text, Part.text]
  | shifted => simp [Declaration.text, Part.text]

/-- **Declarations with one text** that are not the same are confused. -/
theorem confused_of_text_eq {d e : Declaration F} (hd : d.Read) (he : e.Read) (hne : d ≠ e)
    (h : d.text = e.text) : Confused d e ∨ Confused e d := by
  have single : ∀ {p q : Part F}, p ∈ d.params.toList ++ d.cases.toList →
      q ∈ e.params.toList ++ e.cases.toList → 0 :: p.text = 0 :: q.text → p.Alike q :=
    fun hp hq h => (Part.text_eq_iff (hd _ hp) (he _ hq)).mp (List.cons.inj h).2
  -- by the parts that are there on each side: both, one of them, or none
  rcases d with ⟨- | p, - | q⟩
  · rcases e with ⟨- | p', - | q'⟩
    · exact absurd rfl hne
    all_goals simp [Declaration.text] at h
  · rcases e with ⟨- | p', - | q'⟩
    · simp [Declaration.text] at h
    · exact .inl (.cases (single (by simp) (by simp) (by simpa [Declaration.text] using h)))
    · exact .inr (.renamed (single (by simp) (by simp) (by simpa [Declaration.text] using h)).symm)
    · obtain rfl := Part.eq_raw (p := q) (by simpa [Declaration.text] using h)
      exact .inl .casesSplit
  · rcases e with ⟨- | p', - | q'⟩
    · simp [Declaration.text] at h
    · exact .inl (.renamed (single (by simp) (by simp) (by simpa [Declaration.text] using h)))
    · exact .inl (.params (single (by simp) (by simp) (by simpa [Declaration.text] using h)))
    · obtain rfl := Part.eq_raw (p := p) (by simpa [Declaration.text] using h)
      exact .inl .paramsSplit
  · rcases e with ⟨- | p', - | q'⟩
    · simp [Declaration.text] at h
    · obtain rfl := Part.eq_raw (p := q') (by simpa [Declaration.text] using h.symm)
      exact .inr .casesSplit
    · obtain rfl := Part.eq_raw (p := p') (by simpa [Declaration.text] using h.symm)
      exact .inr .paramsSplit
    · rcases pair_cases (hd p (by simp)) (hd q (by simp)) (he p' (by simp)) (he q' (by simp))
        (by simpa [Declaration.text] using h) with ⟨hp, hq⟩ | ⟨b, rfl, rfl⟩ | ⟨b, rfl, rfl⟩
      · exact .inl (.both hp hq)
      · exact .inl .shifted
      · exact .inr .shifted

/-- **When a changed declaration is a new candidate.** -/
theorem normalize_ne_iff {a b fa fb : Dict Bytes} (ha : candidateFiles F a = .ok fa)
    (hb : candidateFiles F b = .ok fb)
    (hsource : fa.lookup (py "model.c") = fb.lookup (py "model.c"))
    (hne : declaration F fa ≠ declaration F fb) : normalize F a ≠ normalize F b ↔
      ¬(Confused (declaration F fa) (declaration F fb) ∨
        Confused (declaration F fb) (declaration F fa)) := by
  have htext : sourceText fa = sourceText fb := by rw [sourceText, sourceText, hsource]
  rw [normalize_eq ha, normalize_eq hb, htext, Ne, List.append_cancel_left_eq, not_iff_not]
  have hread := read_declaration (F := F) fa
  have hread' := read_declaration (F := F) fb
  constructor
  · exact confused_of_text_eq hread hread' hne
  · rintro (h | h)
    · exact h.text_eq hread hread'
    · exact (h.text_eq hread' hread).symm

end Read

/-- The parameters of a function, as a worker would write them. -/
def writtenParams : Bytes :=
  encode (py "[\x7b\"name\": \"c\", \"kind\": \"i32\", \"range\": [0, 255]\x7d]")

/-- They are submitted under the name of the other file, and again under their own. -/
def misnamed : Dict Bytes := [(py "model.c", []), (py "cases.json", writtenParams)]
def corrected : Dict Bytes := [(py "model.c", []), (py "params.json", writtenParams)]

theorem files_misnamed : candidateFiles ZeroFloat misnamed = .ok misnamed := by
  simp [candidateFiles, directFiles, candidateNames, misnamed, List.lookup_cons]

theorem files_corrected : candidateFiles ZeroFloat corrected = .ok corrected := by
  simp [candidateFiles, directFiles, candidateNames, corrected, List.lookup_cons]

theorem declaration_misnamed :
    declaration ZeroFloat misnamed = ⟨none, some (readPart writtenParams)⟩ := by
  simp [declaration, misnamed, List.lookup_cons]

theorem declaration_corrected :
    declaration ZeroFloat corrected = ⟨some (readPart writtenParams), none⟩ := by
  simp [declaration, corrected, List.lookup_cons]

theorem declaration_misnamed_ne :
    declaration ZeroFloat misnamed ≠ declaration ZeroFloat corrected := by
  rw [declaration_misnamed, declaration_corrected]
  intro h
  cases h

/-- The corrected candidate is taken for a repeat. -/
theorem corrected_is_repeat : candidateFiles ZeroFloat misnamed = .ok misnamed ∧
    candidateFiles ZeroFloat corrected = .ok corrected ∧
    misnamed.lookup (py "model.c") = corrected.lookup (py "model.c") ∧
    declaration ZeroFloat misnamed ≠ declaration ZeroFloat corrected ∧
    normalize ZeroFloat misnamed = normalize ZeroFloat corrected := by
  refine ⟨files_misnamed, files_corrected, rfl, declaration_misnamed_ne, ?_⟩
  rw [normalize_eq files_misnamed, normalize_eq files_corrected, declaration_misnamed,
    declaration_corrected]
  rfl

theorem corrected_iff_confused : normalize ZeroFloat misnamed ≠ normalize ZeroFloat corrected ↔
    ¬(Confused (declaration ZeroFloat misnamed) (declaration ZeroFloat corrected) ∨
      Confused (declaration ZeroFloat corrected) (declaration ZeroFloat misnamed)) :=
  normalize_ne_iff files_misnamed files_corrected rfl declaration_misnamed_ne

end ReSchema
