/-
ReSchema/Py/Sorted.lean

What the text with sorted keys determines.

Two values have one such text exactly when they are `Alike`: the same but for
the order of keys, and for surrogate pairs, which the text does not tell from
the code points that they stand for (`encode_dumpsSorted_inj`).  The text
contains no NUL and can be read, so it is told from everything that cannot.

A change of the values of a dictionary that looks at their keys commutes with
the sorting (`sortKeys_mapValues`) and with the joining (`joined_mapValues`).
-/
import ReSchema.Py.Limits

namespace Py

variable {F : Type}

/-! ### Values with one text -/

/-- The same value, but for the order of keys and the spelling of surrogate pairs. -/
def Json.Alike (v w : Json F) : Prop := v.sortKeys.joined = w.sortKeys.joined

theorem Json.Alike.refl (v : Json F) : v.Alike v := rfl

theorem Json.Alike.symm {v w : Json F} (h : v.Alike w) : w.Alike v := Eq.symm h

/-- Lists are alike item by item. -/
theorem alike_arr {xs ys : List (Json F)} :
    (Json.arr xs).Alike (.arr ys) ↔ List.Forall₂ Json.Alike xs ys := by
  have hmap : ∀ zs : List (Json F), (Json.arr zs).sortKeys.joined =
      .arr (zs.map fun z => z.sortKeys.joined) := by
    intro zs
    show Json.arr _ = Json.arr _
    rw [sortKeysList_eq_map, joinedList_eq_map, List.map_map]
    rfl
  rw [Json.Alike, hmap, hmap, Json.arr.injEq, ← List.forall₂_eq_eq_eq, List.forall₂_map_left_iff,
    List.forall₂_map_right_iff]
  rfl

/-- The entries of a dictionary as the text has them. -/
theorem exists_entries (d : Dict (Json F)) : ∃ e : Dict (Json F),
    (Json.obj d).sortKeys.joined = .obj e ∧
      e.Perm (d.map fun p => (joinPairs p.1, p.2.sortKeys.joined)) := by
  refine ⟨_, rfl, ?_⟩
  have hperm := List.perm_insertionSort (fun a b : PyStr × Json F => a.1 ≤ b.1) (sortKeysDict d)
  rw [joinedDict_eq_map]
  refine (hperm.map _).trans (List.Perm.of_eq ?_)
  rw [sortKeysDict_eq_map, List.map_map]
  rfl

theorem Json.Alike.length_eq {d e : Dict (Json F)} (h : (Json.obj d).Alike (.obj e)) :
    d.length = e.length := by
  obtain ⟨d', hd, hperm⟩ := exists_entries d
  obtain ⟨e', he, hperm'⟩ := exists_entries e
  obtain rfl := Json.obj.inj (hd.symm.trans (h.trans he))
  have hl := hperm.length_eq
  have hl' := hperm'.length_eq
  rw [List.length_map] at hl hl'
  exact hl.symm.trans hl'

theorem joinedDict_eq_self {d : Dict (Json F)} :
    joinedDict d = d ↔ ∀ e ∈ d, joinPairs e.1 = e.1 ∧ e.2.joined = e.2 := by
  induction d with
  | nil => simp [joinedDict]
  | cons e d ih =>
      obtain ⟨k, v⟩ := e
      rw [joinedDict, List.cons.injEq, ih, List.forall_mem_cons, Prod.mk.injEq]

theorem joined_sortKeys {v : Json F} : v.joined = v → v.sortKeys.joined = v.sortKeys := by
  induction v using Json.induct with
  | arr xs ih =>
      intro h
      rw [Json.joined, joinedList_eq_map, Json.arr.injEq] at h
      rw [Json.sortKeys, Json.joined, joinedList_eq_map, sortKeysList_eq_map, List.map_map]
      congr 1
      apply List.map_congr_left
      intro x hx
      exact ih x hx (List.map_eq_map_iff.mp (h.trans (List.map_id xs).symm) x hx)
  | obj d ih =>
      intro h
      rw [Json.joined, Json.obj.injEq, joinedDict_eq_self] at h
      rw [Json.sortKeys, Json.joined, Json.obj.injEq, joinedDict_eq_self]
      intro e he
      have hperm := List.perm_insertionSort (fun a b : PyStr × Json F => a.1 ≤ b.1)
        (sortKeysDict d)
      have he' := hperm.subset he
      rw [sortKeysDict_eq_map] at he'
      obtain ⟨e', hmem, rfl⟩ := List.mem_map.mp he'
      exact ⟨(h e' hmem).1, ih e' hmem (h e' hmem).2⟩
  | _ => exact fun h => h

/-- The same value, but for the order of keys. -/
def Json.Same (v w : Json F) : Prop := v.sortKeys = w.sortKeys

theorem alike_iff_same {v w : Json F} (hv : v.joined = v) (hw : w.joined = w) :
    v.Alike w ↔ v.Same w := by
  rw [Json.Alike, Json.Same, joined_sortKeys hv, joined_sortKeys hw]

theorem encode_inj {s t : PyStr} (hs : IsAscii s) (ht : IsAscii t) (h : encode s = encode t) :
    s = t := by
  have hd := congrArg (decodeUtf8 .strict) h
  rw [decodeUtf8_ascii _ hs, decodeUtf8_ascii _ ht] at hd
  exact Option.some.inj hd

theorem zero_not_mem_encode {s : PyStr} (hs : IsAscii s) : (0 : UInt8) ∉ encode s := by
  rw [encode_ascii hs]
  intro h
  obtain ⟨c, hc, h0⟩ := List.mem_map.mp h
  exact ofNat_ne_of_ascii (hs c hc) (.inl rfl) h0

section Text

variable [Runtime F] [LawfulRuntime F] {st : Style}

theorem isAscii_dumpsSorted (hst : st.Blank) (v : Json F) : IsAscii (dumpsSorted st v) :=
  isAscii_render hst v.sortKeys 0

/-- **The text determines the value**, but for what `Alike` leaves open. -/
theorem encode_dumpsSorted_inj (hst : st.Blank) {v w : Json F}
    (hv : v.Fits (Runtime.maxDepth F)) (hw : w.Fits (Runtime.maxDepth F)) :
    encode (dumpsSorted st v) = encode (dumpsSorted st w) ↔ v.Alike w := by
  have htext : dumpsSorted st v = dumpsSorted st w ↔ v.Alike w :=
    dumps_eq_iff hst (sortKeys_fits hv) (sortKeys_fits hw)
  rw [← htext]
  refine ⟨fun h => ?_, fun h => by rw [h]⟩
  exact encode_inj (isAscii_dumpsSorted hst v) (isAscii_dumpsSorted hst w) h

/-- **A line can be read**: the text with a newline behind it. -/
theorem loads_sorted_line (hst : st.Blank) {v : Json F} (hv : v.Fits (Runtime.maxDepth F))
    (hclean : v.Clean) : loads (encode (dumpsSorted st v ++ [ch '\n'])) = some v.sortKeys := by
  have hblank : ∀ c ∈ [ch '\n'], isWs c := List.forall_mem_singleton.mpr (by decide)
  have hascii : IsAscii (dumpsSorted st v ++ [ch '\n']) :=
    List.forall_mem_append.mpr ⟨isAscii_dumpsSorted hst v, isAscii_of_isWs hblank⟩
  have hbom : (dumpsSorted st v ++ [ch '\n']).head? ≠ some 0xfeff := by
    intro h
    have hmark := hascii 0xfeff (List.mem_of_mem_head? h)
    exact absurd hmark.2 (by decide)
  have hread := readsBack hst v.sortKeys 0 [ch '\n']
    (2 * (dumpsSorted st v ++ [ch '\n']).length + 1) (Runtime.maxDepth F) (sortKeys_fits hv)
    (by rintro c r ⟨⟩; exact .inl (by decide)) le_rfl
  have hskip : skipWs (dumpsSorted st v ++ [ch '\n']) = dumpsSorted st v ++ [ch '\n'] :=
    skipWs_render st 0 v.sortKeys _
  have hpairs : loadsPairs (dumpsSorted st v ++ [ch '\n']) = some v.sortKeys.joined := by
    rw [loadsPairs, hskip]
    simp only [dumpsSorted] at hread ⊢
    rw [hread]
    rfl
  have hsorted := hclean.sortKeys
  rw [loads, decodeDetected_ascii hascii, Option.bind_some, loadsText, if_neg hbom, hpairs,
    Option.map_some, hsorted.joined_eq, hsorted.dedupe_eq]

end Text

/-! ### Changes of values -/

/-- The dictionary with its values changed, each in view of its key. -/
def Dict.mapValues (g : PyStr → Json F → Json F) (d : Dict (Json F)) : Dict (Json F) :=
  d.map fun e => (e.1, g e.1 e.2)

theorem sortKeys_mapValues {g : PyStr → Json F → Json F}
    (hg : ∀ k v, (g k v).sortKeys = g k v.sortKeys) {d e : Dict (Json F)}
    (h : (Json.obj d).sortKeys = .obj e) :
    (Json.obj (d.mapValues g)).sortKeys = .obj (e.mapValues g) := by
  obtain rfl := Json.obj.inj h
  have hmap : sortKeysDict (d.mapValues g) = Dict.mapValues g (sortKeysDict d) := by
    simp [sortKeysDict_eq_map, Dict.mapValues, hg]
  show Json.obj _ = Json.obj _
  rw [hmap]
  -- only the keys are compared
  refine congrArg Json.obj (Eq.symm ?_)
  exact List.map_insertionSort _ _ _ _ fun a _ b _ => Iff.rfl

theorem joined_mapValues {g : PyStr → Json F → Json F}
    (hg : ∀ k v, (g k v).joined = g (joinPairs k) v.joined) {d e : Dict (Json F)}
    (h : (Json.obj d).joined = .obj e) :
    (Json.obj (d.mapValues g)).joined = .obj (e.mapValues g) := by
  obtain rfl := Json.obj.inj h
  show Json.obj _ = Json.obj _
  simp [joinedDict_eq_map, Dict.mapValues, hg]

/-- A change of the values that does not look at the keys commutes with an update. -/
theorem Dict.map_set {α β : Type} (f : α → β) (d : Dict α) (k : PyStr) (v : α) :
    (d.set k v).map (fun p => (p.1, f p.2)) = Dict.set (d.map fun p => (p.1, f p.2)) k (f v) := by
  induction d with
  | nil => rfl
  | cons e d ih =>
      obtain ⟨l, w⟩ := e
      simp only [Dict.set, List.map_cons]
      split_ifs <;> simp [ih]

theorem Dict.map_update {α β : Type} (f : α → β) (d e : Dict α) :
    (Dict.update d e).map (fun p => (p.1, f p.2)) =
      Dict.update (d.map fun p => (p.1, f p.2)) (e.map fun p => (p.1, f p.2)) := by
  induction e generalizing d with
  | nil => rfl
  | cons p e ih =>
      show (Dict.update (d.set p.1 p.2) e).map _ = Dict.update (Dict.set _ p.1 (f p.2)) _
      rw [ih, Dict.map_set]

/-! ### What is read -/

/-- ASCII is not what a surrogate pair is joined to. -/
theorem joinPairs_eq_ascii {s t : PyStr} (ht : IsAscii t) : joinPairs s = t ↔ s = t := by
  refine ⟨fun h => ?_, fun h => h.symm ▸ joinPairs_of_ascii ht⟩
  subst h
  induction s using joinPairs.induct with
  | case1 => rfl
  | case2 c => rfl
  | case3 c d r hcd ih =>
      have hlow := (ht (joinPair c d) (by rw [joinPairs, if_pos hcd]; simp)).2
      rw [joinPair, codePoint] at hlow
      simp only [isHigh, isLow, Bool.and_eq_true, decide_eq_true_eq] at hcd
      split_ifs at hlow with hlt
      · simp only at hlow
        omega
      · exact absurd hlow (by decide)
  | case4 c d r hcd ih =>
      rw [joinPairs, if_neg hcd] at ht ⊢
      exact congrArg (c :: ·) (ih (List.forall_mem_cons.mp ht).2)

/-- A dictionary that was read has no key twice. -/
theorem nodup_of_dedupe {v : Json F} {d : Dict (Json F)} (h : v.dedupe = .obj d) :
    d.keys.Nodup := by
  cases v with
  | obj e =>
      obtain rfl := Json.obj.inj h
      exact Dict.nodup_keys_update (by simp [Dict.keys]) _
  | _ => cases h

/-- A value that was read has its repeated keys resolved. -/
theorem exists_dedupe [Runtime F] {b : Bytes} {v : Json F} (h : loads b = some v) :
    ∃ w : Json F, v = w.dedupe := by
  obtain ⟨s, -, hs⟩ := Option.bind_eq_some_iff.mp h
  rw [loadsText] at hs
  split_ifs at hs
  obtain ⟨w, -, rfl⟩ := Option.map_eq_some_iff.mp hs
  exact ⟨w, rfl⟩

/-- The dictionaries of a list that was read have no key twice. -/
theorem nodup_of_loads [Runtime F] {b : Bytes} {xs : List (Json F)} (h : loads b = some (.arr xs))
    {d : Dict (Json F)} (hd : .obj d ∈ xs) : d.keys.Nodup := by
  obtain ⟨w, hw⟩ := exists_dedupe h
  cases w with
  | arr ys =>
      obtain rfl := Json.arr.inj hw
      rw [dedupeList_eq_map] at hd
      obtain ⟨y, -, hy⟩ := List.mem_map.mp hd
      exact nodup_of_dedupe hy
  | _ => cases hw

end Py
