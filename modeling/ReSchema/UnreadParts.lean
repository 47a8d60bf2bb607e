/-
ReSchema/UnreadParts.lean

What can be varied in a declaration that is judged the same.

The fingerprint has the whole of a declaration, but a checker reads only some
of it: the five keys of a parameter, the two bounds of a range, the bytes that a
hexadecimal text stands for, each case once.  So one judged value can be
declared in many ways, and `SameUnread` says when two of them have one
fingerprint (`normalize_eq_iff`).
-/
import ReSchema.Spec
import ReSchema.Fingerprint

namespace ReSchema

open Py

/-! ### What is judged -/

/-- The two kinds of task. -/
inductive TaskKind
  | function
  | program

/-- What a checker judges of a declaration. -/
inductive JudgedValue
  | params (ps : List Param)
  | cases (cs : List (List PyStr × Bytes))

/-- The judged value of the files, `none` where the checker of the kind rejects them: a file of
the other kind is not allowed beside, and only `cases.json` may be missing. -/
def judgedValue (F : Type) [Runtime F] : TaskKind → Dict Bytes → Option JudgedValue
  | .function, files =>
      if py "cases.json" ∈ files.keys then none
      else (files.lookup (py "params.json")).bind fun raw =>
        (paramsOf F raw).toOption.map .params
  | .program, files =>
      if py "params.json" ∈ files.keys then none
      else (parseCases F ((files.lookup (py "cases.json")).getD (encode (py "[]")))).toOption.map
        fun cs => .cases (cs.map fun c => (c.1, (fromHex c.2).getD []))

/-! ### What is not -/

section Unread

variable {F : Type}

/-- The keys of a parameter whose whole value is read. -/
def readKeys : List PyStr := [py "name", py "kind", py "length_param", py "ret"]

/-- A range behind its two bounds. -/
def behindBounds : Json F → Json F
  | .arr xs => .arr (xs.drop 2)
  | v => v

/-- What is left of the value at a key: of a key that is read whole only that it is there. -/
def leftOver (k : PyStr) (v : Json F) : Json F :=
  if k ∈ readKeys then .null else if k = py "range" then behindBounds v else v

/-- A parameter without what is read of it. -/
def unreadParam : Json F → Json F
  | .obj d => .obj (Dict.mapValues leftOver d)
  | v => v

def unreadParams : Json F → Json F
  | .arr xs => .arr (xs.map unreadParam)
  | v => v

variable [Runtime F]

/-- The cases as they are nominated, with repetitions and hexadecimal texts. -/
def nominated (F : Type) [Runtime F] (raw : Bytes) : Option (List Input) :=
  ((loads (F := F) raw).bind Json.arr?).bind fun cs => cs.mapM caseShape

/-- A nominated case, but for the spelling of surrogate pairs. -/
def joinedInput (i : Input) : Input := (i.1.map joinPairs, joinPairs i.2)

/-- Two candidates of a kind declare the same beside what is judged. -/
def SameUnread (F : Type) [Runtime F] : TaskKind → Dict Bytes → Dict Bytes → Prop
  | .function, f, g =>
      Option.Rel (fun v w : Json F => (unreadParams v).Alike (unreadParams w))
        ((f.lookup (py "params.json")).bind loads) ((g.lookup (py "params.json")).bind loads)
  | .program, f, g =>
      Option.Rel (fun cs ds => cs.map joinedInput = ds.map joinedInput)
        ((f.lookup (py "cases.json")).bind (nominated F))
        ((g.lookup (py "cases.json")).bind (nominated F))

end Unread

/-! ### What is read of a parameter -/

section Params

variable {F : Type}

/-- What may stand at a key of the declaration of a parameter. -/
structure Param.Written (p : Param) (k : PyStr) (v : Json F) : Prop where
  name : k = py "name" → v = .str p.name
  kind : k = py "kind" → v = .str p.kind.text
  lengthParam : k = py "length_param" → v = match p.lengthParam with
    | none => .null
    | some l => .str l
  range : k = py "range" → ∃ rest, v = .arr (.int p.lo :: .int p.hi :: rest)
  ret : k = py "ret" → v = .str p.ret.text

theorem item_eq_int {v : Json F} {i : ℕ} {n : ℤ} (h : item v i = .ok (.int n)) :
    ∃ xs, v = .arr xs ∧ xs[i]? = some (.int n) := by
  cases v with
  | arr xs =>
      rw [item] at h
      rcases hx : xs[i]? with - | x
      · simp [hx] at h
      · simp only [hx, Except.ok.injEq] at h
        exact ⟨xs, rfl, h ▸ hx⟩
  | str s =>
      rw [item] at h
      rcases hx : s[i]? with - | x <;> simp [hx] at h
  | _ => simp [item] at h

theorem eq_text_of_find {α : Type} {text : α → PyStr} {all : List α} {v : Json F} {a : α}
    (h : (v.str?.bind fun s => all.find? fun a => text a = s) = some a) : v = .str (text a) := by
  obtain ⟨s, hs, hfind⟩ := Option.bind_eq_some_iff.mp h
  obtain rfl := Json.str?_eq_some.mp hs
  have hp := List.find?_some hfind
  rw [of_decide_eq_true hp]

variable [Runtime F]

/-- What `from_json` reads. -/
theorem fromJson_spec {d : Dict (Json F)} {r : RawParam F} (h : fromJson d = .ok r) :
    d.lookup (py "name") = some r.name ∧
      (∃ v, d.lookup (py "kind") = some v ∧ kindOf v = some r.kind) ∧
      (∃ v, (d.lookup (py "range")).getD (.arr [.int (-100), .int 100]) = v ∧
        item v 0 = .ok r.lo ∧ item v 1 = .ok r.hi) ∧
      (d.lookup (py "length_param")).getD .null = r.lengthParam ∧
      (d.lookup (py "ret")).getD (.str (py "i32")) = r.ret := by
  rw [fromJson] at h
  rcases hname : d.lookup (py "name") with - | name
  · simp [hname] at h
  rcases hkind : d.lookup (py "kind") with - | kind
  · simp [hname, hkind] at h
  rcases hk : kindOf kind with - | k
  · simp [hname, hkind, hk] at h
  simp only [hname, hkind, hk] at h
  split at h
  · cases h
  · cases h
  · rename_i lo hi hlo hhi
    cases h
    exact ⟨rfl, ⟨kind, rfl, hk⟩, ⟨_, rfl, hlo, hhi⟩, rfl, rfl⟩

/-- **What an accepted parameter was written as.** -/
theorem written_of_check {d : Dict (Json F)} (hd : d.keys.Nodup) {r : RawParam F} {p : Param}
    {scalars : List PyStr} (h : fromJson d = .ok r) (hname : r.identifier = some p.name)
    (hcheck : checkParam scalars p.name r = .ok p) : ∀ e ∈ d, p.Written e.1 e.2 := by
  obtain ⟨hn, ⟨kind, hkind, hk⟩, ⟨range, hrange, hlo, hhi⟩, hlength, hret⟩ := fromJson_spec h
  rw [checkParam] at hcheck
  rcases hb : r.bounds with - | ⟨lo, hi⟩
  · simp [hb] at hcheck
  rcases ht : r.retOf with - | ret
  · simp [hb, ht] at hcheck
  rcases hl : r.sizedBy scalars with - | lengthParam
  · simp [hb, ht, hl] at hcheck
  simp only [hb, ht, hl, Except.ok.injEq] at hcheck
  obtain ⟨hplo, hphi, -⟩ := RawParam.bounds_eq_some.mp hb
  -- each field that the checker reads, from its text to the parameter
  rintro ⟨k, v⟩ he
  have hlookup : d.lookup k = some v := Dict.lookup_eq_some_of_mem hd he
  refine ⟨?_, ?_, ?_, ?_, ?_⟩
  · rintro rfl
    obtain rfl := Option.some.inj (hlookup.symm.trans hn)
    exact Json.str?_eq_some.mp (Option.filter_eq_some_iff.mp hname).1
  · rintro rfl
    obtain rfl := Option.some.inj (hlookup.symm.trans hkind)
    rw [← hcheck]
    exact eq_text_of_find hk
  · rintro rfl
    rw [hlookup, Option.getD_some] at hlength
    rw [RawParam.sizedBy, ← hlength] at hl
    cases v with
    | null =>
        obtain rfl := Option.some.inj hl
        rw [← hcheck]
    | str s =>
        simp only at hl
        split_ifs at hl
        obtain rfl := Option.some.inj hl
        rw [← hcheck]
    | _ => cases hl
  · rintro rfl
    rw [hlookup, Option.getD_some] at hrange
    -- only the first two items of a range are read, and what follows them is free
    subst hrange
    rw [hplo] at hlo
    rw [hphi] at hhi
    obtain ⟨xs, rfl, h0⟩ := item_eq_int hlo
    obtain ⟨ys, hys, h1⟩ := item_eq_int hhi
    obtain rfl := Json.arr.inj hys
    rcases xs with - | ⟨x, - | ⟨y, rest⟩⟩
    · cases h0
    · cases h1
    · obtain rfl := Option.some.inj h0
      obtain rfl := Option.some.inj h1
      rw [← hcheck]
      exact ⟨rest, rfl⟩
  · rintro rfl
    rw [hlookup, Option.getD_some] at hret
    rw [RawParam.retOf, ← hret] at ht
    rw [← hcheck]
    exact eq_text_of_find ht

omit [Runtime F]

/-- A key of the declaration is one before surrogate pairs are joined. -/
theorem joinPairs_eq_py {k : PyStr} {s : String}
    (hs : (s.toList.all fun c => decide (0x20 ≤ c.toNat) && decide (c.toNat < 0x7f)) = true) :
    joinPairs k = py s ↔ k = py s :=
  joinPairs_eq_ascii (printable_py hs).isAscii

theorem joinPairs_mem_readKeys {k : PyStr} : joinPairs k ∈ readKeys ↔ k ∈ readKeys := by
  simp only [readKeys, List.mem_cons, List.not_mem_nil, or_false]
  rw [joinPairs_eq_py (s := "name") (by decide), joinPairs_eq_py (s := "kind") (by decide),
    joinPairs_eq_py (s := "length_param") (by decide), joinPairs_eq_py (s := "ret") (by decide)]

theorem sortKeys_behindBounds (v : Json F) :
    (behindBounds v).sortKeys = behindBounds v.sortKeys := by
  cases v with
  | arr xs =>
      show Json.arr _ = Json.arr _
      rw [sortKeysList_eq_map, sortKeysList_eq_map, List.map_drop]
  | _ => rfl

theorem joined_behindBounds (v : Json F) : (behindBounds v).joined = behindBounds v.joined := by
  cases v with
  | arr xs =>
      show Json.arr _ = Json.arr _
      rw [joinedList_eq_map, joinedList_eq_map, List.map_drop]
  | _ => rfl

theorem sortKeys_leftOver (k : PyStr) (v : Json F) :
    (leftOver k v).sortKeys = leftOver k v.sortKeys := by
  rw [leftOver, leftOver]
  split_ifs
  · rfl
  · exact sortKeys_behindBounds v
  · rfl

theorem joined_leftOver (k : PyStr) (v : Json F) :
    (leftOver k v).joined = leftOver (joinPairs k) v.joined := by
  rw [leftOver, leftOver, if_congr joinPairs_mem_readKeys rfl
    (if_congr (joinPairs_eq_py (s := "range") (by decide)) rfl rfl)]
  split_ifs
  · rfl
  · exact joined_behindBounds v
  · rfl

/-- What is written stays what it is in the text. -/
theorem Param.Written.joined {ps : List Param} (ha : Accepted ps) {p : Param} (hp : p ∈ ps)
    {k : PyStr} {v : Json F} (h : p.Written k v) :
    p.Written (joinPairs k) v.sortKeys.joined := by
  have hname : ∀ q ∈ ps, joinPairs q.name = q.name := fun q hq =>
    joinPairs_of_ascii (isName_printable (ha.names q hq)).isAscii
  have hkey : ∀ {s : String}, joinPairs k = py s → (s.toList.all fun c =>
      decide (0x20 ≤ c.toNat) && decide (c.toNat < 0x7f)) = true → k = py s :=
    fun hk hs => (joinPairs_eq_py hs).mp hk
  refine ⟨fun hk => ?_, fun hk => ?_, fun hk => ?_, fun hk => ?_, fun hk => ?_⟩
  · rw [h.name (hkey hk (by decide))]
    exact congrArg Json.str (hname p hp)
  · rw [h.kind (hkey hk (by decide))]
    refine congrArg Json.str ?_
    cases p.kind <;> exact joinPairs_py (by decide)
  · rw [h.lengthParam (hkey hk (by decide))]
    rcases hl : p.lengthParam with - | l
    · rfl
    · obtain ⟨q, hq, -, rfl⟩ := ha.lengths p hp l hl
      exact congrArg Json.str (hname q hq)
  · obtain ⟨rest, rfl⟩ := h.range (hkey hk (by decide))
    exact ⟨_, rfl⟩
  · rw [h.ret (hkey hk (by decide))]
    refine congrArg Json.str ?_
    cases p.ret <;> exact joinPairs_py (by decide)

/-- What is read and what is left over are all of a value. -/
theorem Param.Written.eq_of_leftOver {p : Param} {k : PyStr} {v w : Json F} (hv : p.Written k v)
    (hw : p.Written k w) (h : leftOver k v = leftOver k w) : v = w := by
  by_cases hread : k ∈ readKeys
  · simp only [readKeys, List.mem_cons, List.not_mem_nil, or_false] at hread
    rcases hread with hk | hk | hk | hk
    · rw [hv.name hk, hw.name hk]
    · rw [hv.kind hk, hw.kind hk]
    · rw [hv.lengthParam hk, hw.lengthParam hk]
    · rw [hv.ret hk, hw.ret hk]
  · rw [leftOver, leftOver, if_neg hread, if_neg hread] at h
    by_cases hrange : k = py "range"
    · obtain ⟨r, rfl⟩ := hv.range hrange
      obtain ⟨s, rfl⟩ := hw.range hrange
      rw [if_pos hrange, if_pos hrange] at h
      obtain rfl : r = s := Json.arr.inj h
      rfl
    · rwa [if_neg hrange, if_neg hrange] at h

theorem eq_of_mapValues_leftOver {p : Param} {d e : Dict (Json F)}
    (hd : ∀ x ∈ d, p.Written x.1 x.2) (he : ∀ x ∈ e, p.Written x.1 x.2)
    (h : Dict.mapValues leftOver d = Dict.mapValues leftOver e) : d = e := by
  induction d generalizing e with
  | nil =>
      cases e with
      | nil => rfl
      | cons y e => cases h
  | cons x d ih =>
      cases e with
      | nil => cases h
      | cons y e =>
          obtain ⟨k, v⟩ := x
          obtain ⟨l, w⟩ := y
          obtain ⟨hx, hdrest⟩ := List.forall_mem_cons.mp hd
          obtain ⟨hy, herest⟩ := List.forall_mem_cons.mp he
          obtain ⟨hhead, htail⟩ := List.cons.inj h
          obtain ⟨rfl, hvalue⟩ := Prod.mk.inj hhead
          obtain rfl := hx.eq_of_leftOver hy hvalue
          exact congrArg (_ :: ·) (ih hdrest herest htail)

/-- **A parameter is written alike** when what is left over of it is. -/
theorem alike_iff_unread {ps : List Param} (ha : Accepted ps) {p : Param} (hp : p ∈ ps)
    {d e : Dict (Json F)} (hd : ∀ x ∈ d, p.Written x.1 x.2) (he : ∀ x ∈ e, p.Written x.1 x.2) :
    (Json.obj d).Alike (.obj e) ↔ (unreadParam (.obj d)).Alike (unreadParam (.obj e)) := by
  have htext : ∀ c : Dict (Json F), (∀ x ∈ c, p.Written x.1 x.2) → ∃ c' : Dict (Json F),
      (Json.obj c).sortKeys.joined = .obj c' ∧
      (unreadParam (.obj c)).sortKeys.joined = .obj (Dict.mapValues leftOver c') ∧
      ∀ x ∈ c', p.Written x.1 x.2 := by
    intro c hc
    obtain ⟨c', hc', hperm⟩ := exists_entries c
    refine ⟨c', hc', ?_, fun x hx => ?_⟩
    · rw [unreadParam, sortKeys_mapValues sortKeys_leftOver rfl]
      exact joined_mapValues joined_leftOver hc'
    · obtain ⟨y, hy, rfl⟩ := List.mem_map.mp (hperm.mem_iff.mp hx)
      exact (hc y hy).joined ha hp
  obtain ⟨d', hd', hdu, hdw⟩ := htext d hd
  obtain ⟨e', he', heu, hew⟩ := htext e he
  rw [Json.Alike, Json.Alike, hd', he', hdu, heu, Json.obj.injEq, Json.obj.injEq]
  exact ⟨congrArg _, eq_of_mapValues_leftOver hdw hew⟩

theorem forall₂_congr_of_related {α β : Type} {W : α → β → Prop} {R S : α → α → Prop}
    {as bs : List α} {cs : List β} (ha : List.Forall₂ W as cs) (hb : List.Forall₂ W bs cs)
    (h : ∀ c ∈ cs, ∀ a b, W a c → W b c → (R a b ↔ S a b)) :
    List.Forall₂ R as bs ↔ List.Forall₂ S as bs := by
  induction ha generalizing bs with
  | nil =>
      cases hb
      exact ⟨fun _ => .nil, fun _ => .nil⟩
  | cons hac has ih =>
      obtain - | ⟨hbc, hbs⟩ := hb
      obtain ⟨hc, hcs⟩ := List.forall_mem_cons.mp h
      rw [List.forall₂_cons, List.forall₂_cons, hc _ _ hac hbc, ih hbs hcs]

/-- **A list of parameters is written alike** when what is left over of it is. -/
theorem alike_iff_unreadParams {ps : List Param} (ha : Accepted ps)
    {ds es : List (Dict (Json F))} (hd : List.Forall₂ (fun d p => ∀ x ∈ d, p.Written x.1 x.2) ds ps)
    (he : List.Forall₂ (fun e p => ∀ x ∈ e, p.Written x.1 x.2) es ps) :
    (Json.arr (ds.map .obj)).Alike (.arr (es.map .obj)) ↔
      (unreadParams (.arr (ds.map .obj))).Alike (unreadParams (.arr (es.map .obj))) := by
  rw [unreadParams, unreadParams, List.map_map, List.map_map, alike_arr, alike_arr,
    List.forall₂_map_left_iff, List.forall₂_map_right_iff, List.forall₂_map_left_iff,
    List.forall₂_map_right_iff]
  exact forall₂_congr_of_related hd he fun p hp d e hd he => alike_iff_unread ha hp hd he

theorem forall₂_of_zip {α β γ : Type} {R : α → β → Prop} {S : β × α → γ → Prop} {as : List α}
    {bs : List β} {cs : List γ} (hr : List.Forall₂ R as bs)
    (hs : List.Forall₂ S (bs.zip as) cs) :
    List.Forall₂ (fun a c => ∃ b, R a b ∧ S (b, a) c) as cs := by
  induction hr generalizing cs with
  | nil =>
      cases hs
      exact .nil
  | cons hab has ih =>
      obtain - | ⟨hs, hrest⟩ := hs
      exact .cons ⟨_, hab, hs⟩ (ih hrest)

variable [Runtime F]

/-- The checks look at the parameters one by one. -/
theorem checkParams_spec {rs : List (RawParam F)} {ps : List Param} (h : checkParams rs = .ok ps) :
    ∃ scalars, List.Forall₂ (fun r p => r.identifier = some p.name ∧
      checkParam scalars p.name r = .ok p) rs ps := by
  obtain ⟨names, hnames, -, hchecked, -⟩ := checkParams_ok h
  refine ⟨((names.zip rs).filter fun p => p.2.kind = .i32).map Prod.fst, ?_⟩
  have hall := forall₂_of_zip hnames hchecked
  refine hall.imp ?_
  rintro r p ⟨name, hname, hcheck⟩
  obtain rfl := (checkParam_spec hcheck).1
  exact ⟨hname, hcheck⟩

/-- **What an accepted list was written as.** -/
theorem paramsOf_written {raw : Bytes} {ps : List Param} (h : paramsOf F raw = .ok ps) :
    ∃ ds : List (Dict (Json F)), loads raw = some (.arr (ds.map .obj)) ∧
      List.Forall₂ (fun d p => ∀ x ∈ d, p.Written x.1 x.2) ds ps := by
  obtain ⟨ds, rs, hl, hr, hcheck⟩ := paramsOf_ok h
  refine ⟨ds, hl, ?_⟩
  obtain ⟨scalars, hchecked⟩ := checkParams_spec hcheck
  have hread := mapM_ok.mp hr
  rw [List.forall₂_iff_get] at hread hchecked ⊢
  refine ⟨hread.1.trans hchecked.1, fun i hi hi' => ?_⟩
  have hir : i < rs.length := hread.1 ▸ hi
  obtain ⟨hname, hcheck⟩ := hchecked.2 i hir hi'
  have hnodup := nodup_of_loads hl (List.mem_map_of_mem (List.get_mem ds ⟨i, hi⟩))
  exact written_of_check hnodup (hread.2 i hi hir) hname hcheck

end Params

/-! ### What is read of a case -/

section Cases

variable {F : Type}

/-- A nominated case with its keys in order. -/
def inputJson (i : Input) : Json F :=
  .obj [(py "argv", strs i.1), (py "stdin_hex", .str i.2)]

theorem inputJson_inj {i j : Input} : (inputJson i : Json F) = inputJson j ↔ i = j := by
  refine ⟨fun h => ?_, fun h => by rw [h]⟩
  obtain ⟨hargv, hrest⟩ := List.cons.inj (Json.obj.inj h)
  have hstrs := congrArg Json.strs? (Prod.mk.inj hargv).2
  rw [Json.strs?_strs, Json.strs?_strs] at hstrs
  have hhex := Json.str.inj (Prod.mk.inj (List.cons.inj hrest).1).2
  exact Prod.ext (Option.some.inj hstrs) hhex

theorem strs?_eq_some {v : Json F} {ss : List PyStr} : v.strs? = some ss ↔ v = strs ss := by
  refine ⟨fun h => ?_, fun h => h ▸ Json.strs?_strs ss⟩
  obtain ⟨xs, hxs, hstrs⟩ := Option.bind_eq_some_iff.mp h
  obtain rfl := Json.arr?_eq_some.mp hxs
  have hall := (mapM_some.mp hstrs).imp fun x s hx => Json.str?_eq_some.mp hx
  refine congrArg Json.arr ?_
  rw [← List.forall₂_eq_eq_eq, List.forall₂_map_right_iff]
  exact hall

theorem joined_sortKeys_strs (ss : List PyStr) :
    (strs ss : Json F).sortKeys.joined = strs (ss.map joinPairs) := by
  show Json.arr _ = Json.arr _
  rw [sortKeysList_eq_map, joinedList_eq_map, List.map_map, List.map_map, List.map_map]
  rfl

/-- A dictionary with two keys has its entries in one of two orders. -/
theorem pair_of_keys {d : Dict (Json F)} (hd : d.keys.Nodup) {k l : PyStr} (hkl : k ≠ l)
    (h : ∀ m, m ∈ d.keys ↔ m ∈ [k, l]) {v w : Json F} (hv : d.lookup k = some v)
    (hw : d.lookup l = some w) : d = [(k, v), (l, w)] ∨ d = [(l, w), (k, v)] := by
  have hperm : d.keys.Perm [k, l] :=
    (List.perm_ext_iff_of_nodup hd (by simpa using hkl)).mpr h
  have hlen := hperm.length_eq
  rw [Dict.keys, List.length_map] at hlen
  obtain ⟨x, y, rfl⟩ := List.length_eq_two.mp hlen
  have hmem : (k, v) ∈ [x, y] ∧ (l, w) ∈ [x, y] :=
    ⟨Dict.mem_of_lookup_eq_some hv, Dict.mem_of_lookup_eq_some hw⟩
  simp only [List.mem_cons, List.not_mem_nil, or_false] at hmem
  rcases hmem with ⟨hx | hy, hx' | hy'⟩
  · exact absurd (Prod.mk.inj (hx.trans hx'.symm)).1 hkl
  · rw [hx, hy']
    exact .inl rfl
  · rw [hx', hy]
    exact .inr rfl
  · exact absurd (Prod.mk.inj (hy.trans hy'.symm)).1 hkl

/-- **A nominated case in the text.** -/
theorem joined_of_caseShape {d : Dict (Json F)} (hd : d.keys.Nodup) {i : Input}
    (h : caseShape (.obj d) = some i) :
    (Json.obj d).sortKeys.joined = inputJson (joinedInput i) := by
  rw [caseShape] at h
  obtain ⟨d', hd', h⟩ := Option.bind_eq_some_iff.mp h
  obtain rfl := Json.obj.inj (Json.obj?_eq_some.mp hd')
  obtain ⟨a, ha, h⟩ := Option.bind_eq_some_iff.mp h
  obtain ⟨argv, hargv, h⟩ := Option.bind_eq_some_iff.mp h
  obtain ⟨b, hb, h⟩ := Option.bind_eq_some_iff.mp h
  obtain ⟨hex, hhex, h⟩ := Option.bind_eq_some_iff.mp h
  split_ifs at h with hshape
  obtain rfl := Option.some.inj h
  obtain rfl := strs?_eq_some.mp hargv
  obtain rfl := Json.str?_eq_some.mp hhex
  have hle : py "argv" ≤ py "stdin_hex" := by decide
  have hnot : ¬py "stdin_hex" ≤ py "argv" := by decide
  have hsorted : (Json.obj d).sortKeys =
      .obj [(py "argv", (strs argv : Json F).sortKeys), (py "stdin_hex", .str hex)] := by
    rcases pair_of_keys hd (by simp) (sameKeys_iff.mp hshape.1) ha hb with rfl | rfl
    all_goals
      show Json.obj (List.insertionSort _ [_, _]) = _
      simp [List.insertionSort, List.orderedInsert, hle, hnot, Json.sortKeys]
  rw [hsorted]
  show Json.obj [(_, _), (_, _)] = _
  rw [joined_sortKeys_strs]
  rfl

variable [Runtime F]

theorem parseCase_eq_ok {c : Json F} {i : Input} (h : parseCase c = .ok i) :
    caseShape c = some i := by
  rw [parseCase] at h
  rcases hshape : caseShape c with - | j
  · simp [hshape] at h
  rcases hhex : fromHex j.2 with - | bs
  · simp [hshape, hhex] at h
  simp only [hshape, hhex, Except.ok.injEq] at h
  rw [h]

/-- **The nominated cases in the text**, with their repetitions. -/
theorem nominated_of_parseCases {raw : Bytes} {cs : List Input} (h : parseCases F raw = .ok cs) :
    ∃ v inputs, loads (F := F) raw = some v ∧ nominated F raw = some inputs ∧
      v.sortKeys.joined = .arr (inputs.map fun i => inputJson (joinedInput i)) := by
  rw [parseCases.eq_def] at h
  rcases hl : loads (F := F) raw with - | v
  · simp [hl] at h
  cases v with
  | arr xs =>
      simp only [hl] at h
      split_ifs at h
      rcases hm : xs.mapM parseCase with e | inputs
      · rw [hm] at h
        cases h
      have hall := (mapM_ok.mp hm).imp fun c i => parseCase_eq_ok
      refine ⟨.arr xs, inputs, rfl, ?_, ?_⟩
      · rw [nominated, hl]
        exact mapM_some.mpr hall
      · show Json.arr _ = Json.arr _
        -- case by case: a case of the right shape is the dump of its input
        rw [sortKeysList_eq_map, joinedList_eq_map, List.map_map]
        refine congrArg Json.arr ?_
        rw [← List.forall₂_eq_eq_eq, List.forall₂_map_left_iff, List.forall₂_map_right_iff]
        rw [List.forall₂_iff_get] at hall ⊢
        refine ⟨hall.1, fun k hk hk' => ?_⟩
        have hshape := hall.2 k hk hk'
        obtain ⟨d, hd, -⟩ := Option.bind_eq_some_iff.mp hshape
        have hobj := Json.obj?_eq_some.mp hd
        have hmem := List.get_mem xs ⟨k, hk⟩
        rw [hobj] at hshape hmem ⊢
        exact joined_of_caseShape (nodup_of_loads hl hmem) hshape
  | _ => simp [hl] at h

end Cases

/-! ### The same judged value -/

section Guard

variable {F : Type} [Runtime F]

theorem judged_function {files : Dict Bytes} {j : JudgedValue}
    (h : judgedValue F .function files = some j) : files.lookup (py "cases.json") = none ∧
      ∃ raw ps, files.lookup (py "params.json") = some raw ∧ paramsOf F raw = .ok ps ∧
        j = .params ps := by
  rw [judgedValue] at h
  split_ifs at h with hcases
  obtain ⟨raw, hraw, h⟩ := Option.bind_eq_some_iff.mp h
  obtain ⟨ps, hps, rfl⟩ := Option.map_eq_some_iff.mp h
  refine ⟨Dict.lookup_of_not_mem hcases, raw, ps, hraw, ?_, rfl⟩
  cases hp : paramsOf F raw with
  | error e =>
      rw [hp] at hps
      cases hps
  | ok qs =>
      rw [hp] at hps
      exact congrArg Except.ok (Option.some.inj hps)

theorem judged_program {files : Dict Bytes} {j : JudgedValue}
    (h : judgedValue F .program files = some j) : files.lookup (py "params.json") = none ∧
      ∃ cs, parseCases F ((files.lookup (py "cases.json")).getD (encode (py "[]"))) = .ok cs := by
  rw [judgedValue] at h
  split_ifs at h with hparams
  obtain ⟨cs, hcs, rfl⟩ := Option.map_eq_some_iff.mp h
  refine ⟨Dict.lookup_of_not_mem hparams, cs, ?_⟩
  cases hp : parseCases F ((files.lookup (py "cases.json")).getD (encode (py "[]"))) with
  | error e =>
      rw [hp] at hcs
      cases hcs
  | ok qs =>
      rw [hp] at hcs
      exact congrArg Except.ok (Option.some.inj hcs)

variable [LawfulRuntime F]

theorem canonicalPart_eq_iff {raw raw' : Bytes} {v w : Json F} (h : loads raw = some v)
    (h' : loads raw' = some w) : canonicalPart F raw = canonicalPart F raw' ↔ v.Alike w := by
  simp only [canonicalPart, h, h']
  exact encode_dumpsSorted_inj compact_blank (loads_fits h) (loads_fits h')

/-- The fingerprints of two declarations of one list of parameters. -/
theorem text_eq_iff_params {f g : Dict Bytes} {j : JudgedValue}
    (hf : judgedValue F .function f = some j) (hg : judgedValue F .function g = some j) :
    (declaration F f).text = (declaration F g).text ↔ SameUnread F .function f g := by
  obtain ⟨hfc, raw, ps, hraw, hps, hj⟩ := judged_function hf
  obtain ⟨hgc, raw', ps', hraw', hps', hj'⟩ := judged_function hg
  obtain rfl : ps = ps' := JudgedValue.params.inj (hj.symm.trans hj')
  obtain ⟨ds, hv, hds⟩ := paramsOf_written hps
  obtain ⟨es, hw, hes⟩ := paramsOf_written hps'
  have htext : (declaration F f).text = (declaration F g).text ↔
      canonicalPart F raw = canonicalPart F raw' := by
    rw [text_declaration, text_declaration, hfc, hgc, hraw, hraw']
    simp
  rw [htext, canonicalPart_eq_iff hv hw, alike_iff_unreadParams (paramsOf_accepted hps) hds hes]
  have hrel : SameUnread F .function f g ↔ Option.Rel
      (fun v w : Json F => (unreadParams v).Alike (unreadParams w))
      (some (.arr (ds.map .obj))) (some (.arr (es.map .obj))) := by
    rw [SameUnread, hraw, hraw', Option.bind_some, Option.bind_some, hv, hw]
  rw [hrel, Option.rel_some_some]

/-- The fingerprints of two declarations of cases. -/
theorem text_eq_iff_cases {f g : Dict Bytes} {j j' : JudgedValue}
    (hf : judgedValue F .program f = some j) (hg : judgedValue F .program g = some j') :
    (declaration F f).text = (declaration F g).text ↔ SameUnread F .program f g := by
  obtain ⟨hfp, cs, hcs⟩ := judged_program hf
  obtain ⟨hgp, cs', hcs'⟩ := judged_program hg
  rw [text_declaration, text_declaration, hfp, hgp]
  rcases hraw : f.lookup (py "cases.json") with - | raw
  · rcases hraw' : g.lookup (py "cases.json") with - | raw'
    · refine iff_of_true rfl ?_
      rw [SameUnread, hraw, hraw']
      exact .none
    · rw [hraw', Option.getD_some] at hcs'
      obtain ⟨w, inputs', hw, hnom', -⟩ := nominated_of_parseCases hcs'
      refine iff_of_false (by simp) ?_
      rw [SameUnread, hraw, hraw', Option.bind_some, hnom']
      exact Option.not_rel_none_some
  · rw [hraw, Option.getD_some] at hcs
    obtain ⟨v, inputs, hv, hnom, hjoined⟩ := nominated_of_parseCases hcs
    rcases hraw' : g.lookup (py "cases.json") with - | raw'
    · refine iff_of_false (by simp) ?_
      rw [SameUnread, hraw, hraw', Option.bind_some, hnom]
      exact Option.not_rel_some_none
    · rw [hraw', Option.getD_some] at hcs'
      obtain ⟨w, inputs', hw, hnom', hjoined'⟩ := nominated_of_parseCases hcs'
      -- both texts are there, and determine the inputs with their surrogate pairs joined
      have htext : canonicalPart F raw = canonicalPart F raw' ↔
          inputs.map joinedInput = inputs'.map joinedInput := by
        rw [canonicalPart_eq_iff hv hw, Json.Alike, hjoined, hjoined', Json.arr.injEq]
        have hmap : ∀ is : List Input, (is.map fun i => (inputJson (joinedInput i) : Json F)) =
            (is.map joinedInput).map inputJson := fun is => by
          rw [List.map_map]
          rfl
        rw [hmap, hmap]
        exact (List.map_injective_iff.mpr fun i j => inputJson_inj.mp).eq_iff
      rw [SameUnread, hraw, hraw', Option.bind_some, Option.bind_some, hnom, hnom']
      simp only [Option.toList_none, Option.toList_some, List.nil_append, List.flatMap_cons,
        List.flatMap_nil, List.append_nil, List.cons.injEq, true_and]
      rw [htext, Option.rel_some_some]

/-- **When one judged value has one fingerprint.** -/
theorem normalize_eq_iff {kind : TaskKind} {a b fa fb : Dict Bytes} {j : JudgedValue}
    (ha : candidateFiles F a = .ok fa) (hb : candidateFiles F b = .ok fb)
    (hsource : sourceText fa = sourceText fb) (hja : judgedValue F kind fa = some j)
    (hjb : judgedValue F kind fb = some j) :
    normalize F a = normalize F b ↔ SameUnread F kind fa fb := by
  rw [normalize_eq ha, normalize_eq hb, hsource, List.append_cancel_left_eq]
  cases kind with
  | function => exact text_eq_iff_params hja hjb
  | program => exact text_eq_iff_cases hja hjb

end Guard

/-! ### A note beside the judged value -/

/-- One parameter, as a worker would declare it. -/
def charParam : Param := ⟨py "c", .i32, none, 0, 255, .i32⟩

theorem accepted_charParam : Accepted [charParam] where
  names := by decide
  nodup := by decide
  range := by decide
  lengths := by simp [charParam]
  sizing := by decide

/-- It is declared as it is, and with one more key, which is not read. -/
def charFields : Dict (Json ZeroFloat) := charParam.fields
def notedFields : Dict (Json ZeroFloat) := charFields ++ [(py "note", .null)]

/-- A candidate that declares one parameter. -/
def declaring (d : Dict (Json ZeroFloat)) : Dict Bytes :=
  [(py "model.c", []), (py "params.json", encode (dumps plain (.arr [.obj d])))]

theorem files_declaring (d : Dict (Json ZeroFloat)) :
    candidateFiles ZeroFloat (declaring d) = .ok (declaring d) := by
  simp [candidateFiles, directFiles, candidateNames, declaring, List.lookup_cons]

/-- The source is the same whatever is declared. -/
theorem sourceText_declaring (d : Dict (Json ZeroFloat)) :
    sourceText (declaring d) = normSource (decodeReplace []) := by
  have hlookup : (declaring d).lookup (py "model.c") = some [] := by
    simp [declaring]
  rw [sourceText, hlookup, Option.getD_some]

theorem clean_charFields : (Json.obj charFields).Clean :=
  charParam.toJson_clean accepted_charParam (List.mem_singleton_self _)

theorem fits_charFields : (Json.obj charFields).Fits 2 :=
  charParam.toJson_fits accepted_charParam (List.mem_singleton_self _) (le_refl 2)

theorem clean_notedFields : (Json.obj notedFields).Clean := by
  have hnote : joinPairs (py "note") = py "note" := joinPairs_py (by decide)
  refine ⟨by simp [Dict.keys, notedFields, charFields, Param.fields], cleanDict_iff.mpr ?_⟩
  refine List.forall_mem_append.mpr ⟨cleanDict_iff.mp clean_charFields.2, ?_⟩
  exact List.forall_mem_singleton.mpr ⟨hnote, trivial⟩

theorem fits_notedFields : (Json.obj notedFields).Fits 2 := by
  refine ⟨two_pos, fitsDict_iff.mpr ?_⟩
  refine List.forall_mem_append.mpr ⟨fitsDict_iff.mp fits_charFields.2, ?_⟩
  exact List.forall_mem_singleton.mpr trivial

/-- What is declared is read back. -/
theorem loads_declared {d : Dict (Json ZeroFloat)} (hclean : (Json.obj d).Clean)
    (hfits : (Json.obj d).Fits 2) : loads (encode (dumps plain (.arr [.obj d]))) =
      some (Json.arr [.obj d]) := by
  have hdepth : Runtime.maxDepth ZeroFloat = 1000 := rfl
  refine loads_dumps plain_blank ⟨by rw [hdepth]; omega, ?_, trivial⟩ ⟨hclean, trivial⟩
  exact hfits.mono (by rw [hdepth]; omega)

theorem judged_declaring {d : Dict (Json ZeroFloat)}
    (h : paramsOf ZeroFloat (encode (dumps plain (.arr [.obj d]))) = .ok [charParam]) :
    judgedValue ZeroFloat .function (declaring d) = some (.params [charParam]) := by
  have hcases : py "cases.json" ∉ Dict.keys (declaring d) := by simp [Dict.keys, declaring]
  have hlookup : (declaring d).lookup (py "params.json") =
      some (encode (dumps plain (.arr [.obj d]))) := by simp [declaring, List.lookup_cons]
  rw [judgedValue, if_neg hcases, hlookup, Option.bind_some, h]
  rfl

theorem paramsOf_notedFields :
    paramsOf ZeroFloat (encode (dumps plain (.arr [.obj notedFields]))) = .ok [charParam] := by
  have hread : fromJson notedFields = .ok (charParam.raw : RawParam ZeroFloat) := by
    simp [fromJson, notedFields, charFields, Param.fields, List.lookup_cons, kindOf_text, item, Param.raw]
  have hobj : ((Json.arr [.obj notedFields]).arr?.bind fun xs => xs.mapM Json.obj?) =
      some [notedFields] := rfl
  have hreads : [notedFields].mapM fromJson = .ok [(charParam.raw : RawParam ZeroFloat)] :=
    mapM_ok.mpr (.cons hread .nil)
  rw [paramsOf]
  simp only [loads_declared clean_notedFields fits_notedFields, hobj, hreads]
  exact checkParams_raw accepted_charParam

theorem paramsOf_charFields :
    paramsOf ZeroFloat (encode (dumps plain (.arr [.obj charFields]))) = .ok [charParam] := by
  have hlist : [Json.obj charFields] = [charParam].map Param.toJson := rfl
  rw [hlist]
  exact paramsOf_dumps accepted_charParam

/-- The parameter is judged the same with the note, and is a new candidate. -/
theorem note_is_new : candidateFiles ZeroFloat (declaring charFields) =
      .ok (declaring charFields) ∧
    candidateFiles ZeroFloat (declaring notedFields) = .ok (declaring notedFields) ∧
    sourceText (declaring charFields) = sourceText (declaring notedFields) ∧
    judgedValue ZeroFloat .function (declaring charFields) = some (.params [charParam]) ∧
    judgedValue ZeroFloat .function (declaring notedFields) = some (.params [charParam]) ∧
    normalize ZeroFloat (declaring charFields) ≠
      normalize ZeroFloat (declaring notedFields) := by
  have hjudged := judged_declaring paramsOf_charFields
  have hjudged' := judged_declaring paramsOf_notedFields
  have hsource := (sourceText_declaring charFields).trans
    (sourceText_declaring notedFields).symm
  refine ⟨files_declaring _, files_declaring _, hsource, hjudged, hjudged', fun h => ?_⟩
  rw [normalize_eq (files_declaring _), normalize_eq (files_declaring _), hsource,
    List.append_cancel_left_eq] at h
  have htext : ∀ d : Dict (Json ZeroFloat), (declaration ZeroFloat (declaring d)).text =
      0 :: canonicalPart ZeroFloat (encode (dumps plain (.arr [.obj d]))) := by
    intro d
    rw [text_declaration]
    simp [declaring, List.lookup_cons]
  rw [htext, htext, List.cons.injEq, canonicalPart_eq_iff (loads_declared clean_charFields fits_charFields)
      (loads_declared clean_notedFields fits_notedFields),
    alike_arr] at h
  -- a key more is an entry more
  obtain - | ⟨halike, -⟩ := h.2
  have hlength := halike.length_eq
  rw [notedFields, List.length_append] at hlength
  exact absurd hlength (by simp)

theorem note_iff : normalize ZeroFloat (declaring charFields) =
    normalize ZeroFloat (declaring notedFields) ↔
      SameUnread ZeroFloat .function (declaring charFields) (declaring notedFields) :=
  normalize_eq_iff (files_declaring _) (files_declaring _)
    ((sourceText_declaring _).trans (sourceText_declaring _).symm)
    (judged_declaring paramsOf_charFields) (judged_declaring paramsOf_notedFields)

end ReSchema
