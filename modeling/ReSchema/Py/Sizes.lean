/-
ReSchema/Py/Sizes.lean

How long texts get.

The weight of a value counts its nodes and the code points of its strings.
The scanner never makes a value heavier than the text it read
(`weight_of_loadsText`), and `repr` writes at most a constant for each unit of
weight (`length_pyStr_le`), so the text of an untrusted value is bounded by the
text it came from.  Decoding and splitting into lines make no text longer.

A rendered object is at least as long as each of its entries and at most as
long as all of them with their punctuation; `sort_keys` moves entries and
changes neither.  Indentation adds a line break for each item
(`length_indent_le`).
-/
import ReSchema.Py.Limits

namespace Py

/-! ### Numerals -/

theorem length_natText_le {n k : ℕ} (hk : 0 < k) (h : n < 10 ^ k) : (natText n).length ≤ k := by
  rw [natText, List.length_map]
  exact Nat.toDigits_length 10 n k hk h

/-- A numeral has a digit for each power of ten. -/
theorem lt_pow_length_natText (n : ℕ) : n < 10 ^ (natText n).length := by
  have := @digitsVal_lt (natText n) fun c hc => isDigit_of_mem_natText hc
  rwa [digitsVal_natText] at this

theorem length_intText_le {i : ℤ} {k : ℕ} (hk : 0 < k) (h : i.natAbs < 10 ^ k) :
    (intText i).length ≤ k + 1 := by
  have := length_natText_le hk h
  unfold intText
  split
  · rw [List.length_cons]
    omega
  · omega

theorem length_natText_pow (k : ℕ) : (natText (10 ^ k)).length = k + 1 := by
  refine le_antisymm (length_natText_le k.succ_pos ?_) ?_
  · exact Nat.pow_lt_pow_right (by decide) k.lt_succ_self
  · exact (Nat.pow_lt_pow_iff_right (by decide)).mp (lt_pow_length_natText (10 ^ k))

theorem intText_natCast (n : ℕ) : intText n = natText n := by
  rw [intText, if_neg (by omega), Int.natAbs_natCast]

theorem length_hex (bs : Bytes) : (hex bs).length = 2 * bs.length := by
  induction bs with
  | nil => rfl
  | cons b bs ih =>
      rw [hex, List.length_cons, List.length_cons, ih, List.length_cons]
      omega

/-! ### Weight -/

variable {F : Type}

mutual
/-- The nodes of a value, with a code point of a string or a key counted as one. -/
def Json.weight : Json F → ℕ
  | .str s => s.length + 1
  | .arr xs => 1 + weightList xs
  | .obj d => 1 + weightDict d
  | _ => 1
def weightList : List (Json F) → ℕ
  | [] => 0
  | x :: xs => x.weight + weightList xs
def weightDict : List (PyStr × Json F) → ℕ
  | [] => 0
  | (k, v) :: d => k.length + 1 + v.weight + weightDict d
end

theorem weightList_eq_sum (xs : List (Json F)) : weightList xs = (xs.map Json.weight).sum := by
  induction xs with
  | nil => rfl
  | cons x xs ih => rw [weightList, ih, List.map_cons, List.sum_cons]

theorem weightDict_eq_sum (d : Dict (Json F)) :
    weightDict d = (d.map fun e => e.1.length + 1 + e.2.weight).sum := by
  induction d with
  | nil => rfl
  | cons e d ih => rw [weightDict, ih, List.map_cons, List.sum_cons]

theorem weight_le_of_lookup {d : Dict (Json F)} {k : PyStr} {v : Json F}
    (h : d.lookup k = some v) : v.weight ≤ weightDict d := by
  rw [weightDict_eq_sum]
  have hmem := List.mem_map_of_mem (f := fun e : PyStr × Json F => e.1.length + 1 + e.2.weight)
    (Dict.mem_of_lookup_eq_some h)
  have := List.single_le_sum (by simp) _ hmem
  dsimp only at this
  omega

theorem Dict.length_set_le {α : Type} (d : Dict α) (k : PyStr) (v : α) :
    (d.set k v).length ≤ d.length + 1 := by
  induction d with
  | nil => exact le_refl _
  | cons e d ih =>
      obtain ⟨k', v'⟩ := e
      by_cases h : k' = k
      · simp [Dict.set, h]
      · simpa [Dict.set, h] using ih

theorem Dict.length_update_le {α : Type} (d e : Dict α) :
    (d.update e).length ≤ d.length + e.length := by
  induction e generalizing d with
  | nil => exact le_refl _
  | cons p e ih =>
      have h1 := ih (d.set p.1 p.2)
      have h2 := Dict.length_set_le d p.1 p.2
      rw [Dict.update] at h1 ⊢
      rw [List.foldl_cons, List.length_cons]
      omega

theorem weightDict_set_le (d : Dict (Json F)) (k : PyStr) (v : Json F) :
    weightDict (d.set k v) ≤ weightDict d + (k.length + 1 + v.weight) := by
  induction d with
  | nil => simp [Dict.set, weightDict]
  | cons e d ih =>
      obtain ⟨k', v'⟩ := e
      by_cases h : k' = k
      · simp only [Dict.set, if_pos h, weightDict]
        omega
      · simp only [Dict.set, if_neg h, weightDict]
        omega

theorem weightDict_update_le (d e : Dict (Json F)) :
    weightDict (d.update e) ≤ weightDict d + weightDict e := by
  induction e generalizing d with
  | nil => exact le_refl _
  | cons p e ih =>
      have h1 := ih (d.set p.1 p.2)
      have h2 := weightDict_set_le d p.1 p.2
      rw [Dict.update] at h1 ⊢
      rw [List.foldl_cons, weightDict]
      omega

/-- Repeated keys can only make a value lighter. -/
theorem dedupe_weight_le (v : Json F) : v.dedupe.weight ≤ v.weight := by
  induction v using Json.induct with
  | arr xs ih =>
      rw [Json.dedupe, Json.weight, Json.weight, dedupeList_eq_map, weightList_eq_sum,
        weightList_eq_sum, List.map_map]
      exact Nat.add_le_add_left (List.sum_le_sum fun x hx => ih x hx) 1
  | obj d ih =>
      have hupd := weightDict_update_le [] (dedupeDict d)
      have hsum : weightDict (dedupeDict d) ≤ weightDict d := by
        rw [dedupeDict_eq_map, weightDict_eq_sum, weightDict_eq_sum, List.map_map]
        exact List.sum_le_sum fun e he => Nat.add_le_add_left (ih e he) _
      rw [Json.dedupe, Json.weight, Json.weight]
      rw [weightDict] at hupd
      omega
  | _ => exact le_refl _

/-! ### What the scanner reads -/

theorem joinItems_length (items : List (Bool × CodePoint)) :
    (joinItems items).length ≤ items.length := by
  induction items using joinItems.induct with
  | case1 => simp [joinItems]
  | case2 a => simp [joinItems]
  | case3 a b r h ih =>
      rw [joinItems, if_pos h]
      simp only [List.length_cons]
      omega
  | case4 a b r h ih =>
      rw [joinItems, if_neg h]
      simp only [List.length_cons] at ih ⊢
      omega

theorem scanItems_weight {s r : PyStr} {items : List (Bool × CodePoint)}
    (h : scanItems s = some (items, r)) : items.length + 1 + r.length ≤ s.length := by
  induction s using scanItems.induct generalizing items r with
  | case1 => simp [scanItems] at h
  | _ =>
      rw [scanItems.eq_def] at h
      simp_all
      try grind

theorem scanString_weight {s k r : PyStr} (h : scanString s = some (k, r)) :
    k.length + 1 + r.length ≤ s.length := by
  obtain ⟨p, hp, hk⟩ := Option.map_eq_some_iff.mp h
  obtain ⟨rfl, rfl⟩ := Prod.mk.inj hk
  have h1 := scanItems_weight hp
  have h2 := joinItems_length p.1
  omega

variable [Runtime F]

theorem scanScalar_weight {s r : PyStr} {v : Json F} (h : scanScalar s = some (v, r)) :
    v.weight = 1 := by
  unfold scanScalar at h
  split at h
  · rename_i q hq
    cases h
    obtain ⟨p, hp, hstrip⟩ := List.exists_of_findSome?_eq_some hq
    obtain ⟨t, -, htq⟩ := Option.map_eq_some_iff.mp hstrip
    obtain ⟨rfl, rfl⟩ : p.2 = v ∧ t = r := by simpa using htq
    simp only [constants, List.mem_cons, List.not_mem_nil, or_false] at hp
    rcases hp with rfl | rfl | rfl | rfl | rfl | rfl <;> rfl
  · rw [scanNumber.eq_def] at h
    rcases hint : scanInt (scanSign s).2 with - | ⟨ds, t⟩
    · simp [hint] at h
    · simp only [hint] at h
      split_ifs at h <;> obtain ⟨rfl, rfl⟩ := Prod.mk.inj (Option.some.inj h) <;> rfl

/-- **The weight of what is read.**  Every unit of it has been read. -/
theorem value_weight (fuel : ℕ) :
    (∀ depth s (v : Json F) r, value fuel depth s = some (v, r) →
      v.weight + r.length ≤ s.length) ∧
    (∀ depth s (xs : List (Json F)) r, elems fuel depth s = some (xs, r) →
      weightList xs + r.length + 1 ≤ s.length) ∧
    (∀ depth s (d : Dict (Json F)) r, members fuel depth s = some (d, r) →
      weightDict d + r.length + 1 ≤ s.length) := by
  -- on the fuel, the three readers at once: each calls the others with less
  induction fuel with
  | zero => exact ⟨by simp [value], by simp [elems], by simp [members]⟩
  | succ fuel ih =>
      obtain ⟨ihV, ihE, ihM⟩ := ih
      refine ⟨fun depth s v r h => ?_, fun depth s xs r h => ?_, fun depth s d r h => ?_⟩
      · -- a text, an object or an array, empty or not, or a number or constant
        rcases value_cases h with ⟨t, t1, rfl, ht, rfl⟩ |
          ⟨t, d, e, r1, rfl, rfl, ht, ⟨-, rfl, rfl⟩ | ⟨es, hes, rfl⟩⟩ |
          ⟨t, d, e, r1, rfl, rfl, ht, ⟨-, rfl, rfl⟩ | ⟨xs, hxs, rfl⟩⟩ | hs
        · have := scanString_weight ht
          rw [Json.weight, List.length_cons]
          omega
        · have := skipWs_cons_length ht
          rw [Json.weight, weightDict, List.length_cons]
          omega
        · have h1 := length_skipWs_le t
          have h2 := ihM d _ es r hes
          rw [ht] at h1
          rw [Json.weight, List.length_cons]
          omega
        · have := skipWs_cons_length ht
          rw [Json.weight, weightList, List.length_cons]
          omega
        · have h1 := length_skipWs_le t
          have h2 := ihE d _ xs r hxs
          rw [ht] at h1
          rw [Json.weight, List.length_cons]
          omega
        · rw [scanScalar_weight hs]
          have := (scanScalar_spec hs 0).2
          omega
      · obtain ⟨v, r0, c, r1, hv, hs, hcase⟩ := elems_cases h
        have h1 := ihV depth s v r0 hv
        have h2 := skipWs_cons_length hs
        rcases hcase with ⟨-, rfl, rfl⟩ | ⟨-, ys, hys, rfl⟩
        · simp only [weightList]
          omega
        · have h3 := ihE depth _ ys r hys
          have h4 := length_skipWs_le r1
          rw [weightList]
          omega
      · obtain ⟨t, k, r0, r1, v, r2, c, r3, rfl, hk, hs1, hv, hs2, hcase⟩ := members_cases h
        have h1 := scanString_weight hk
        have h2 := skipWs_cons_length hs1
        have h3 := length_skipWs_le r1
        have h4 := ihV depth _ v r2 hv
        have h5 := skipWs_cons_length hs2
        rw [List.length_cons]
        rcases hcase with ⟨-, rfl, rfl⟩ | ⟨-, e, he, rfl⟩
        · simp only [weightDict]
          omega
        · have h6 := ihM depth _ e r he
          have h7 := length_skipWs_le r3
          rw [weightDict]
          omega

theorem weight_of_loadsText {s : PyStr} {v : Json F} (h : loadsText s = some v) :
    v.weight ≤ s.length := by
  rw [loadsText] at h
  split_ifs at h
  obtain ⟨w, hw, rfl⟩ := Option.map_eq_some_iff.mp h
  rw [loadsPairs.eq_def] at hw
  rcases hv : value (F := F) (2 * s.length + 1) (Runtime.maxDepth F) (skipWs s) with - | ⟨u, r⟩
  · simp [hv] at hw
  · simp only [hv] at hw
    split_ifs at hw
    cases hw
    have h1 := (value_weight _).1 _ _ _ _ hv
    have h2 := length_skipWs_le s
    have h3 := dedupe_weight_le w
    omega

/-! ### `repr` -/

@[simp] theorem length_hexFixed (w n : ℕ) : (hexFixed w n).length = w := by
  induction w generalizing n with
  | zero => rfl
  | succ w ih => rw [hexFixed, List.length_append, ih, List.length_singleton]

theorem length_reprChar_le (q c : CodePoint) : (reprChar F q c).length ≤ 10 := by
  unfold reprChar
  split_ifs <;> simp [py, uEscape]

theorem length_flatMap_le {α β : Type} {f : α → List β} {k : ℕ} (h : ∀ a, (f a).length ≤ k)
    (as : List α) : (as.flatMap f).length ≤ k * as.length := by
  induction as with
  | nil => simp
  | cons a as ih =>
      have := h a
      rw [List.flatMap_cons, List.length_append, List.length_cons, Nat.mul_succ]
      omega

theorem length_reprStr_le (s : PyStr) : (reprStr F s).length ≤ 10 * s.length + 2 := by
  have := length_flatMap_le (length_reprChar_le (F := F) (reprQuote s)) s
  rw [reprStr, List.length_cons, List.length_append, List.length_singleton]
  omega

theorem length_commaJoin_le (ss : List PyStr) :
    (commaJoin ss).length ≤ (ss.map fun s => s.length + 2).sum := by
  induction ss using commaJoin.induct with
  | case1 => simp [commaJoin]
  | case2 s => simp [commaJoin]
  | case3 s t r ih =>
      have hsep : (py ", ").length = 2 := rfl
      rw [commaJoin, List.length_append, List.length_append, List.map_cons, List.sum_cons]
      omega

omit [Runtime F] in
theorem sum_le_mul_sum {α : Type} {f g : α → ℕ} {k : ℕ} {as : List α}
    (h : ∀ a ∈ as, f a ≤ k * g a) : (as.map f).sum ≤ k * (as.map g).sum := by
  rw [← List.sum_map_mul_left]
  exact List.sum_le_sum h

theorem pyReprList_eq_map (xs : List (Json F)) : pyReprList xs = xs.map pyRepr := by
  induction xs with
  | nil => rfl
  | cons x xs ih => rw [pyReprList, ih, List.map_cons]

theorem pyReprDict_eq_map (d : Dict (Json F)) :
    pyReprDict d = d.map fun e => reprStr F e.1 ++ py ": " ++ pyRepr e.2 := by
  induction d with
  | nil => rfl
  | cons e d ih => rw [pyReprDict, ih, List.map_cons]

/-- No unit of weight takes more room than the longest integer. -/
theorem length_pyRepr_le [LawfulRuntime F] (v : Json F) :
    ∀ {n : ℕ}, v.Fits n → (pyRepr v).length + 2 ≤ 4310 * v.weight := by
  induction v using Json.induct with
  | null => simp [pyRepr, Json.weight, py]
  | bool b => cases b <;> simp [pyRepr, Json.weight, py]
  | int i =>
      intro n h
      have := length_intText_le (k := maxStrDigits) (by decide) h
      -- the longest integer that `str` prints is what the factor is for
      have hmax : maxStrDigits = 4300 := rfl
      simp only [pyRepr, Json.weight]
      omega
  | float x =>
      intro n h
      have := LawfulRuntime.length_floatRepr x
      simp only [pyRepr, Json.weight]
      omega
  | str s =>
      intro n h
      have := length_reprStr_le (F := F) s
      rw [pyRepr, Json.weight]
      omega
  | arr xs ih =>
      intro n h
      have hitems := length_commaJoin_le (pyReprList xs)
      have hsum : ((pyReprList xs).map fun s => s.length + 2).sum ≤ 4310 * weightList xs := by
        rw [pyReprList_eq_map, List.map_map, weightList_eq_sum]
        exact sum_le_mul_sum fun x hx => ih x hx (fitsList_iff.mp h.2 x hx)
      rw [pyRepr, Json.weight, List.length_cons, List.length_append, List.length_singleton]
      omega
  | obj d ih =>
      intro n h
      have hitems := length_commaJoin_le (pyReprDict d)
      have hsum : ((pyReprDict d).map fun s => s.length + 2).sum ≤ 4310 * weightDict d := by
        rw [pyReprDict_eq_map, List.map_map, weightDict_eq_sum]
        refine sum_le_mul_sum fun e he => ?_
        have h1 := length_reprStr_le (F := F) e.1
        have h2 := ih e he (fitsDict_iff.mp h.2 e he)
        have hsep : (py ": ").length = 2 := rfl
        simp only [Function.comp_apply, List.length_append]
        omega
      rw [pyRepr, Json.weight, List.length_cons, List.length_append, List.length_singleton]
      omega

/-- **The length of `str`** of a value that was read. -/
theorem length_pyStr_le [LawfulRuntime F] {v : Json F} {n : ℕ} (h : v.Fits n) :
    (pyStr v).length ≤ 4310 * v.weight := by
  have := length_pyRepr_le v h
  cases v with
  | str s =>
      rw [pyStr, Json.weight]
      omega
  | _ =>
      rw [pyStr]
      · omega
      · simp

/-! ### Decoding and lines -/

/-- A text of at most `n` code points, if any. -/
def AtMost (n : ℕ) (o : Option PyStr) : Prop := ∀ s, o = some s → s.length ≤ n

omit [Runtime F] in
theorem AtMost.cons {m n : ℕ} {o : Option PyStr} {c : CodePoint} (h : AtMost m o) (hn : m < n) :
    AtMost n (o.map (c :: ·)) := by
  intro s hs
  obtain ⟨t, ht, rfl⟩ := Option.map_eq_some_iff.mp hs
  have := h t ht
  rw [List.length_cons]
  omega

omit [Runtime F] in
theorem AtMost.recover {m n : ℕ} {o : Option PyStr} {e : OnError} (h : AtMost m o) (hn : m < n) :
    AtMost n (e.recover o) := by
  cases e with
  | replace => exact h.cons hn
  | _ => simp [AtMost, OnError.recover]

omit [Runtime F] in
theorem atMost_nil : AtMost 0 (some []) := by simp [AtMost]

omit [Runtime F] in
/-- Decoding makes at most one code point of an octet. -/
theorem decodeUtf8_atMost (e : OnError) (b : Bytes) : AtMost b.length (decodeUtf8 e b) := by
  fun_induction decodeUtf8 e b
  case case1 => exact atMost_nil
  all_goals
    first
      | exact AtMost.cons (by assumption) (by simp only [List.length_cons]; omega)
      | exact AtMost.recover (by assumption) (by simp only [List.length_cons]; omega)
      | exact AtMost.recover atMost_nil (by simp only [List.length_cons]; omega)
      | simp [AtMost]

/-! ### Lines -/

omit [Runtime F] in
theorem splitLinesFrom_length {cur : PyStr} {fresh : Bool} {s l : PyStr}
    (h : l ∈ splitLinesFrom cur fresh s) : l.length ≤ cur.length + s.length := by
  induction cur, fresh, s using splitLinesFrom.induct with
  | case1 => simp_all [splitLinesFrom]
  | _ =>
      rw [splitLinesFrom.eq_def] at h
      simp only [*, if_true, if_false] at h
      grind

omit [Runtime F] in
theorem splitLines_length {s l : PyStr} (h : l ∈ splitLines s) : l.length ≤ s.length := by
  simpa using splitLinesFrom_length h

omit [Runtime F] in
theorem splitLinesFrom_line {l : PyStr} (hl : ∀ c ∈ l, isLineBreak c = false) (cur : PyStr)
    (fresh : Bool) (s : PyStr) :
    splitLinesFrom cur fresh (l ++ ch '\n' :: s) = (cur ++ l) :: splitLinesFrom [] true s := by
  induction l generalizing cur fresh with
  | nil =>
      have hr : ch '\n' ≠ ch '\r' := by simp
      have hn : isLineBreak (ch '\n') = true := by decide
      rw [List.nil_append, List.append_nil, splitLinesFrom.eq_def]
      simp only [hr, hn, if_true, if_false]
  | cons c l ih =>
      obtain ⟨hc, hl⟩ := List.forall_mem_cons.mp hl
      have hr : c ≠ ch '\r' := by
        rintro rfl
        exact absurd hc (by decide)
      rw [List.cons_append, splitLinesFrom.eq_def]
      simp only [hr, hc, if_false, Bool.false_eq_true]
      rw [ih hl, List.append_assoc, List.singleton_append]

omit [Runtime F] in
/-- Lines without a boundary in them, each with one behind it, are split again. -/
theorem splitLines_flatMap {ls : List PyStr} (h : ∀ l ∈ ls, ∀ c ∈ l, isLineBreak c = false) :
    splitLines (ls.flatMap fun l => l ++ [ch '\n']) = ls := by
  induction ls with
  | nil => rfl
  | cons l ls ih =>
      obtain ⟨hl, hls⟩ := List.forall_mem_cons.mp h
      rw [List.flatMap_cons, List.append_assoc, List.singleton_append, splitLines,
        splitLinesFrom_line hl, List.nil_append]
      exact congrArg (l :: ·) (ih hls)

/-- A text of `json.dumps` is one line. -/
theorem isLineBreak_dumps [LawfulRuntime F] (v : Json F) :
    ∀ c ∈ dumps plain v, isLineBreak c = false := by
  have hp : ∀ c : CodePoint, 0x20 ≤ c.val ∧ c.val < 0x7f → isLineBreak c = false := by
    intro c hc
    have h : ∀ n : ℕ, n < 0x7f → 0x20 ≤ n → isLineBreak (codePoint n) = false := by decide
    simpa [codePoint_val] using h c.val hc.2 hc.1
  have hpad : ∀ c ∈ py " ", isLineBreak c = false := by simp [py]; decide
  exact forall_mem_render hp hpad hpad (by simp [Style.newline, plain]) v 0

/-! ### Rendered values -/

omit [Runtime F] in
theorem length_escapeChar_le (c : CodePoint) : (escapeChar c).length ≤ 12 := by
  unfold escapeChar
  split_ifs <;> simp [py, uEscape]

omit [Runtime F] in
theorem length_quote_le (s : PyStr) : (quote s).length ≤ 12 * s.length + 2 := by
  have := length_flatMap_le length_escapeChar_le s
  rw [quote, List.length_cons, List.length_append, List.length_singleton, escape]
  omega

omit [Runtime F] in
/-- A text that needs no escapes. -/
theorem length_quote_raw {s : PyStr} (h : ∀ c ∈ s, escapeChar c = [c]) :
    (quote s).length = s.length + 2 := by
  have hescape : escape s = s := by
    induction s with
    | nil => rfl
    | cons c s ih =>
        obtain ⟨hc, hs⟩ := List.forall_mem_cons.mp h
        rw [escape, List.flatMap_cons, hc, List.singleton_append]
        exact congrArg (c :: ·) (ih hs)
  rw [quote, hescape, List.length_cons, List.length_append, List.length_singleton]

theorem length_renderElems (st : Style) (lvl : ℕ) (xs : List (Json F)) :
    (renderElems st lvl xs).length =
      (xs.map fun x => 1 + st.itemPad.length + (st.newline lvl).length +
        (render st lvl x).length).sum := by
  induction xs with
  | nil => rfl
  | cons x xs ih =>
      rw [renderElems, List.map_cons, List.sum_cons, ← ih]
      simp only [List.length_cons, List.length_append]
      omega

/-- A rendered array is as long as its items together. -/
theorem sum_le_length_render_arr (st : Style) (lvl : ℕ) (xs : List (Json F)) :
    (xs.map fun x => (render st (lvl + 1) x).length).sum ≤ (render st lvl (.arr xs)).length := by
  cases xs with
  | nil => simp
  | cons x xs =>
      have hrest : (xs.map fun x => (render st (lvl + 1) x).length).sum ≤
          (renderElems st (lvl + 1) xs).length := by
        rw [length_renderElems]
        exact List.sum_le_sum fun y _ => by omega
      rw [List.map_cons, List.sum_cons, render]
      simp only [List.length_cons, List.length_append]
      omega

theorem length_render_arr_le (st : Style) (lvl : ℕ) (xs : List (Json F)) :
    (render st lvl (.arr xs)).length ≤ 2 + (st.newline lvl).length +
      (xs.map fun x => 1 + st.itemPad.length + (st.newline (lvl + 1)).length +
        (render st (lvl + 1) x).length).sum := by
  cases xs with
  | nil => simp [render, py]
  | cons x xs =>
      rw [render, List.map_cons, List.sum_cons, ← length_renderElems]
      simp only [List.length_cons, List.length_append, List.length_nil]
      omega

theorem length_renderMembers_ge (st : Style) (lvl : ℕ) {d : Dict (Json F)} {e : PyStr × Json F}
    (h : e ∈ d) : (render st lvl e.2).length ≤ (renderMembers st lvl d).length := by
  induction d with
  | nil => exact absurd h List.not_mem_nil
  | cons p d ih =>
      rw [renderMembers]
      simp only [List.length_cons, List.length_append]
      rcases List.mem_cons.mp h with rfl | h
      · omega
      · have := ih h
        omega

/-- A rendered object is as long as each of its entries. -/
theorem length_render_le_obj (st : Style) (lvl : ℕ) {d : Dict (Json F)} {e : PyStr × Json F}
    (h : e ∈ d) : (render st (lvl + 1) e.2).length ≤ (render st lvl (.obj d)).length := by
  cases d with
  | nil => exact absurd h List.not_mem_nil
  | cons p d =>
      rw [render]
      simp only [List.length_cons, List.length_append]
      rcases List.mem_cons.mp h with rfl | h
      · omega
      · have := length_renderMembers_ge st (lvl + 1) h
        omega

/-- The room of an entry: its text, the key, and the punctuation and layout around it. -/
def entryRoom (st : Style) (lvl : ℕ) (e : PyStr × Json F) : ℕ :=
  2 + st.itemPad.length + (st.newline lvl).length + (quote e.1).length + st.keyPad.length +
    (render st lvl e.2).length

theorem length_renderMembers (st : Style) (lvl : ℕ) (d : Dict (Json F)) :
    (renderMembers st lvl d).length = (d.map (entryRoom st lvl)).sum := by
  induction d with
  | nil => rfl
  | cons e d ih =>
      rw [renderMembers, List.map_cons, List.sum_cons, ← ih, entryRoom]
      simp only [List.length_cons, List.length_append]
      omega

theorem length_render_obj_le (st : Style) (lvl : ℕ) (d : Dict (Json F)) :
    (render st lvl (.obj d)).length ≤
      2 + (st.newline lvl).length + (d.map (entryRoom st (lvl + 1))).sum := by
  cases d with
  | nil => simp [render, py]
  | cons e d =>
      rw [render, List.map_cons, List.sum_cons, ← length_renderMembers, entryRoom]
      simp only [List.length_cons, List.length_append, List.length_nil]
      omega

/-- The text of an object that is not empty. -/
theorem length_render_obj (st : Style) (lvl : ℕ) {d : Dict (Json F)} (h : d ≠ []) :
    (render st lvl (.obj d)).length + 1 + st.itemPad.length =
      2 + (st.newline lvl).length + (d.map (entryRoom st (lvl + 1))).sum := by
  cases d with
  | nil => exact absurd rfl h
  | cons e d =>
      rw [render, List.map_cons, List.sum_cons, ← length_renderMembers, entryRoom]
      simp only [List.length_cons, List.length_append, List.length_nil]
      omega

/-! ### The two layouts -/

theorem length_itemPad_plain : plain.itemPad.length = 1 := rfl

theorem length_keyPad_plain : plain.keyPad.length = 1 := rfl

theorem length_newline_plain (lvl : ℕ) : (plain.newline lvl).length = 0 := rfl

theorem length_itemPad_indent2 : indent2.itemPad.length = 0 := rfl

theorem length_keyPad_indent2 : indent2.keyPad.length = 1 := rfl

theorem length_newline_indent2 (lvl : ℕ) : (indent2.newline lvl).length = 2 * lvl + 1 := by
  show (ch '\n' :: List.replicate (2 * lvl) (ch ' ')).length = _
  rw [List.length_cons, List.length_replicate]

theorem entryRoom_str_le {k t : PyStr} {m n : ℕ} (hk : k.length ≤ m) (ht : t.length ≤ n) :
    entryRoom indent2 1 (k, (.str t : Json F)) ≤ 12 * m + 12 * n + 10 := by
  have hkey := length_quote_le k
  have htext := length_quote_le t
  have hnl : (indent2.newline 1).length = 3 := rfl
  simp only [entryRoom, render, hnl, length_itemPad_indent2, length_keyPad_indent2]
  omega

/-- `sort_keys` makes no text longer or shorter. -/
theorem length_render_sortKeys (st : Style) (v : Json F) (lvl : ℕ) :
    (render st lvl v.sortKeys).length = (render st lvl v).length := by
  induction v using Json.induct generalizing lvl with
  | arr xs ih =>
      rw [Json.sortKeys, sortKeysList_eq_map]
      cases xs with
      | nil => rfl
      | cons x xs =>
          obtain ⟨hx, hxs⟩ := List.forall_mem_cons.mp ih
          have hrest : (renderElems st (lvl + 1) (xs.map Json.sortKeys)).length =
              (renderElems st (lvl + 1) xs).length := by
            rw [length_renderElems, length_renderElems, List.map_map]
            refine congrArg List.sum (List.map_congr_left fun y hy => ?_)
            rw [Function.comp_apply, hxs y hy]
          rw [List.map_cons, render, render]
          simp only [List.length_cons, List.length_append, hx, hrest]
  | obj d ih =>
      by_cases hd : d = []
      · subst hd
        rfl
      have hperm := List.perm_insertionSort (fun a b : PyStr × Json F => a.1 ≤ b.1)
        (sortKeysDict d)
      have hsorted : (sortKeysDict d).insertionSort (fun a b => a.1 ≤ b.1) ≠ [] := by
        intro hnil
        rw [hnil, sortKeysDict_eq_map] at hperm
        exact hd (List.map_eq_nil_iff.mp (List.nil_perm.mp hperm))
      -- the same entries in another order
      have hsum : (((sortKeysDict d).insertionSort fun a b => a.1 ≤ b.1).map
          (entryRoom st (lvl + 1))).sum = (d.map (entryRoom st (lvl + 1))).sum := by
        rw [(hperm.map _).sum_eq, sortKeysDict_eq_map, List.map_map]
        refine congrArg List.sum (List.map_congr_left fun e he => ?_)
        rw [Function.comp_apply, entryRoom, entryRoom, ih e he]
      have h1 := length_render_obj st lvl hsorted
      have h2 := length_render_obj st lvl hd
      rw [hsum] at h1
      rw [Json.sortKeys]
      omega
  | _ => rfl

/-! ### Indentation -/

mutual
/-- What the line breaks and the indentation of a value at nesting `lvl` add to its text. -/
def Json.layout : ℕ → Json F → ℕ
  | lvl, .arr xs => 2 * lvl + 1 + layoutList (lvl + 1) xs
  | lvl, .obj d => 2 * lvl + 1 + layoutDict (lvl + 1) d
  | _, _ => 0
def layoutList : ℕ → List (Json F) → ℕ
  | _, [] => 0
  | lvl, x :: xs => 2 * lvl + 1 + x.layout lvl + layoutList lvl xs
def layoutDict : ℕ → List (PyStr × Json F) → ℕ
  | _, [] => 0
  | lvl, (_, v) :: d => 2 * lvl + 1 + v.layout lvl + layoutDict lvl d
end

/-- A value that is no container. -/
def Json.Scalar : Json F → Prop
  | .arr _ => False
  | .obj _ => False
  | _ => True

omit [Runtime F] in
theorem Json.Scalar.layout {v : Json F} (h : v.Scalar) (lvl : ℕ) : v.layout lvl = 0 := by
  cases v with
  | arr xs => exact h.elim
  | obj d => exact h.elim
  | _ => rfl

omit [Runtime F] in
theorem layoutDict_le {d : Dict (Json F)} {lvl n : ℕ} (h : ∀ e ∈ d, e.2.layout lvl ≤ n) :
    layoutDict lvl d ≤ (2 * lvl + 1 + n) * d.length := by
  induction d with
  | nil => exact le_refl _
  | cons e d ih =>
      obtain ⟨he, hd⟩ := List.forall_mem_cons.mp h
      have := ih hd
      rw [layoutDict, List.length_cons, Nat.mul_succ]
      omega

theorem length_indentElems_le {lvl : ℕ} {xs : List (Json F)}
    (h : ∀ x ∈ xs, (render indent2 lvl x).length ≤ (render plain lvl x).length + x.layout lvl) :
    (renderElems indent2 lvl xs).length ≤
      (renderElems plain lvl xs).length + layoutList lvl xs := by
  induction xs with
  | nil => exact le_refl _
  | cons x xs ih =>
      obtain ⟨hx, hxs⟩ := List.forall_mem_cons.mp h
      have := ih hxs
      rw [renderElems, renderElems, layoutList]
      simp only [List.length_cons, List.length_append, length_itemPad_indent2, length_itemPad_plain,
        length_newline_plain, length_newline_indent2]
      omega

theorem length_indentMembers_le {lvl : ℕ} {d : Dict (Json F)}
    (h : ∀ e ∈ d, (render indent2 lvl e.2).length ≤
      (render plain lvl e.2).length + e.2.layout lvl) :
    (renderMembers indent2 lvl d).length ≤
      (renderMembers plain lvl d).length + layoutDict lvl d := by
  induction d with
  | nil => exact le_refl _
  | cons e d ih =>
      obtain ⟨he, hd⟩ := List.forall_mem_cons.mp h
      have := ih hd
      rw [renderMembers, renderMembers, layoutDict]
      simp only [List.length_cons, List.length_append, length_itemPad_indent2, length_itemPad_plain,
        length_keyPad_indent2, length_keyPad_plain, length_newline_plain, length_newline_indent2]
      omega

/-- **What indentation adds** is no more than its line breaks. -/
theorem length_indent_le (v : Json F) (lvl : ℕ) :
    (render indent2 lvl v).length ≤ (render plain lvl v).length + v.layout lvl := by
  induction v using Json.induct generalizing lvl with
  | arr xs ih =>
      cases xs with
      | nil => exact Nat.le_add_right _ _
      | cons x xs =>
          obtain ⟨hx, hxs⟩ := List.forall_mem_cons.mp ih
          have hfirst := hx (lvl + 1)
          have hrest := length_indentElems_le fun y hy => hxs y hy (lvl + 1)
          rw [render, render, Json.layout, layoutList]
          simp only [List.length_cons, List.length_append, length_newline_plain,
            length_newline_indent2]
          omega
  | obj d ih =>
      cases d with
      | nil => exact Nat.le_add_right _ _
      | cons e d =>
          obtain ⟨he, hd⟩ := List.forall_mem_cons.mp ih
          have hfirst := he (lvl + 1)
          have hrest := length_indentMembers_le fun e' he' => hd e' he' (lvl + 1)
          rw [render, render, Json.layout, layoutDict]
          simp only [List.length_cons, List.length_append, length_keyPad_indent2,
            length_keyPad_plain, length_newline_plain, length_newline_indent2]
          omega
  | _ => exact Nat.le_add_right _ _

theorem length_plainElems_le {l m : ℕ} {xs : List (Json F)}
    (h : ∀ x ∈ xs, (render plain l x).length ≤ (render indent2 m x).length) :
    (renderElems plain l xs).length ≤ (renderElems indent2 m xs).length := by
  rw [length_renderElems, length_renderElems]
  apply List.sum_le_sum
  intro x hx
  have := h x hx
  simp only [length_itemPad_indent2, length_itemPad_plain, length_newline_plain,
    length_newline_indent2]
  omega

theorem length_plainMembers_le {l m : ℕ} {d : Dict (Json F)}
    (h : ∀ e ∈ d, (render plain l e.2).length ≤ (render indent2 m e.2).length) :
    (renderMembers plain l d).length ≤ (renderMembers indent2 m d).length := by
  rw [length_renderMembers, length_renderMembers]
  apply List.sum_le_sum
  intro e he
  have := h e he
  simp only [entryRoom, length_itemPad_indent2, length_itemPad_plain, length_keyPad_indent2,
    length_keyPad_plain, length_newline_plain, length_newline_indent2]
  omega

/-- **Indentation only adds**: the line breaks make up for the blanks behind commas. -/
theorem length_plain_le (v : Json F) (l m : ℕ) :
    (render plain l v).length ≤ (render indent2 m v).length := by
  induction v using Json.induct generalizing l m with
  | arr xs ih =>
      cases xs with
      | nil => exact le_refl _
      | cons x xs =>
          obtain ⟨hx, hxs⟩ := List.forall_mem_cons.mp ih
          have hfirst := hx (l + 1) (m + 1)
          have hrest := length_plainElems_le fun y hy => hxs y hy (l + 1) (m + 1)
          rw [render, render]
          simp only [List.length_cons, List.length_append, length_newline_plain]
          omega
  | obj d ih =>
      cases d with
      | nil => exact le_refl _
      | cons e d =>
          obtain ⟨he, hd⟩ := List.forall_mem_cons.mp ih
          have hfirst := he (l + 1) (m + 1)
          have hrest := length_plainMembers_le fun e' he' => hd e' he' (l + 1) (m + 1)
          rw [render, render]
          simp only [List.length_cons, List.length_append, length_keyPad_indent2,
            length_keyPad_plain, length_newline_plain]
          omega
  | _ => exact le_refl _

end Py
