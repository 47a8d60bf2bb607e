/-
ReSchema/Py/Limits.lean

What `json.loads` returns stays inside the interpreter's limits.

One scanner step can do a handful of things, listed once for each of the three
mutual functions (`value_cases`, `elems_cases`, `members_cases`).  From them
follow, by induction on the fuel, that a scanned value nests no deeper than the
budget and has readable integers (`value_fits`), that the scanner always
advances, and that the fuel of `loadsPairs` is enough (`value_fuel`).

`Json.Fits` then survives the resolution of repeated keys and `sort_keys`, so
what was read can be written and read again (`loads_fits`).
-/
import ReSchema.Py.RoundTrip

namespace Py

variable {F : Type} [Runtime F]

/-! ### Scalars -/

theorem stripPrefix_eq_some {p s r : PyStr} (h : stripPrefix p s = some r) : s = p ++ r := by
  unfold stripPrefix at h
  split at h
  · rename_i hp
    obtain ⟨t, rfl⟩ := List.isPrefixOf_iff_prefix.mp hp
    simpa using h
  · simp at h

theorem digitsVal_lt {ds : PyStr} (h : ∀ c ∈ ds, isDigit c = true) :
    digitsVal ds < 10 ^ ds.length := by
  have go : ∀ (ds : PyStr) (n : ℕ), (∀ c ∈ ds, isDigit c = true) →
      ds.foldl (fun n c => 10 * n + (c.val - 0x30)) n < (n + 1) * 10 ^ ds.length := by
    intro ds
    induction ds with
    | nil => intro n _; simp
    | cons c ds ih =>
        intro n hds
        obtain ⟨hc, hds⟩ := List.forall_mem_cons.mp hds
        have hdigit : c.val - 0x30 ≤ 9 := by
          simp only [isDigit, Bool.and_eq_true, decide_eq_true_iff] at hc
          omega
        have hstep := ih (10 * n + (c.val - 0x30)) hds
        have hle : (10 * n + (c.val - 0x30) + 1) * 10 ^ ds.length
            ≤ (10 * n + 10) * 10 ^ ds.length := Nat.mul_le_mul_right _ (by omega)
        calc _ < _ := hstep
          _ ≤ (10 * n + 10) * 10 ^ ds.length := hle
          _ = (n + 1) * 10 ^ (ds.length + 1) := by ring
  simpa [digitsVal] using go ds 0 h

theorem scanSign_append (s : PyStr) : (scanSign s).1 ++ (scanSign s).2 = s := by
  cases s with
  | nil => rfl
  | cons c r => by_cases h : c = ch '-' <;> simp [scanSign, h]

theorem scanInt_spec {s ds r : PyStr} (h : scanInt s = some (ds, r)) :
    ds ++ r = s ∧ ds ≠ [] ∧ ∀ c ∈ ds, isDigit c = true := by
  cases s with
  | nil => simp [scanInt] at h
  | cons c t =>
      simp only [scanInt] at h
      split_ifs at h with h0 hc
      · obtain ⟨rfl, rfl⟩ : [c] = ds ∧ t = r := by simpa using h
        subst h0
        exact ⟨rfl, by simp, by simp [isDigit_ch]⟩
      · obtain ⟨rfl, rfl⟩ : c :: t.takeWhile isDigit = ds ∧ t.dropWhile isDigit = r := by
          simpa using h
        refine ⟨by simp, by simp, List.forall_mem_cons.mpr ⟨hc, fun d hd => ?_⟩⟩
        exact List.mem_takeWhile_imp hd

theorem scanFrac_length (s : PyStr) : (scanFrac s).2.length ≤ s.length := by
  unfold scanFrac
  split
  · split
    · rename_i c r _
      have := (List.dropWhile_sublist (p := isDigit) (l := r)).length_le
      simp only [List.length_cons]
      omega
    · exact le_refl _
  · exact le_refl _

theorem scanExp_length (s : PyStr) : (scanExp s).2.length ≤ s.length := by
  have drop : ∀ r : PyStr, (r.dropWhile isDigit).length ≤ r.length := fun r =>
    (List.dropWhile_sublist (p := isDigit) (l := r)).length_le
  unfold scanExp
  split
  · rename_i e c r
    split
    · have := drop r
      simp only [List.length_cons]
      omega
    · split
      · split
        · rename_i d r'
          split
          · have := drop r'
            simp only [List.length_cons]
            omega
          · exact le_refl _
        · exact le_refl _
      · exact le_refl _
  · exact le_refl _

theorem scanNumber_spec {s r : PyStr} {v : Json F} (h : scanNumber s = some (v, r)) (n : ℕ) :
    v.Fits n ∧ r.length < s.length := by
  rw [scanNumber.eq_def] at h
  rcases hint : scanInt (scanSign s).2 with - | ⟨ds, t⟩
  · simp [hint] at h
  · obtain ⟨happ, hne, hdigit⟩ := scanInt_spec hint
    have hds : 0 < ds.length := List.length_pos_of_ne_nil hne
    have hlen : t.length < s.length := by
      have h1 := congrArg List.length happ
      have h2 := congrArg List.length (scanSign_append s)
      simp only [List.length_append] at h1 h2
      omega
    simp only [hint] at h
    split_ifs at h with hint' hmax hsign
    · obtain ⟨rfl, rfl⟩ := Prod.mk.inj (Option.some.inj h)
      have hval : digitsVal ds < 10 ^ maxStrDigits :=
        (digitsVal_lt hdigit).trans_le (Nat.pow_le_pow_right (by decide) hmax)
      exact ⟨by simpa [Json.Fits] using hval, hlen⟩
    · obtain ⟨rfl, rfl⟩ := Prod.mk.inj (Option.some.inj h)
      have hval : digitsVal ds < 10 ^ maxStrDigits :=
        (digitsVal_lt hdigit).trans_le (Nat.pow_le_pow_right (by decide) hmax)
      exact ⟨by simpa [Json.Fits] using hval, hlen⟩
    · obtain ⟨rfl, rfl⟩ := Prod.mk.inj (Option.some.inj h)
      have h1 := scanFrac_length t
      have h2 := scanExp_length (scanFrac t).2
      exact ⟨trivial, by omega⟩

theorem scanScalar_spec {s r : PyStr} {v : Json F} (h : scanScalar s = some (v, r)) (n : ℕ) :
    v.Fits n ∧ r.length < s.length := by
  unfold scanScalar at h
  split at h
  · rename_i q hq
    cases h
    obtain ⟨p, hp, hstrip⟩ := List.exists_of_findSome?_eq_some hq
    obtain ⟨t, ht, htq⟩ := Option.map_eq_some_iff.mp hstrip
    obtain ⟨rfl, rfl⟩ : p.2 = v ∧ t = r := by simpa using htq
    have hs := congrArg List.length (stripPrefix_eq_some ht)
    rw [List.length_append] at hs
    simp only [constants, List.mem_cons, List.not_mem_nil, or_false] at hp
    have hpos : 0 < p.1.length := by
      rcases hp with rfl | rfl | rfl | rfl | rfl | rfl <;> exact Nat.zero_lt_succ _
    refine ⟨?_, by omega⟩
    rcases hp with rfl | rfl | rfl | rfl | rfl | rfl <;> trivial
  · exact scanNumber_spec h n

theorem scanItems_length {s r : PyStr} {items : List (Bool × CodePoint)}
    (h : scanItems s = some (items, r)) : r.length < s.length := by
  induction s using scanItems.induct generalizing items r with
  | case1 => simp [scanItems] at h
  | _ =>
      rw [scanItems.eq_def] at h
      simp_all
      try grind

/-! ### One scanner step -/

/-- What a successful call of `value` has read. -/
theorem value_cases {fuel depth : ℕ} {s r : PyStr} {v : Json F}
    (h : value (fuel + 1) depth s = some (v, r)) :
    (∃ t t1, s = ch '"' :: t ∧ scanString t = some (t1, r) ∧ v = .str t1) ∨
    (∃ t d e r1, s = ch '\x7b' :: t ∧ depth = d + 1 ∧ skipWs t = e :: r1 ∧
      (e = ch '\x7d' ∧ v = .obj [] ∧ r = r1 ∨
        ∃ es, members fuel d (e :: r1) = some (es, r) ∧ v = .obj es)) ∨
    (∃ t d e r1, s = ch '[' :: t ∧ depth = d + 1 ∧ skipWs t = e :: r1 ∧
      (e = ch ']' ∧ v = .arr [] ∧ r = r1 ∨
        ∃ xs, elems fuel d (e :: r1) = some (xs, r) ∧ v = .arr xs)) ∨
    scanScalar s = some (v, r) := by
  cases s with
  | nil => simp [value] at h
  | cons c t =>
      rw [value.eq_def] at h
      simp only at h
      split_ifs at h with hq hb ha
      · subst hq
        obtain ⟨p, hp, hv⟩ := Option.map_eq_some_iff.mp h
        obtain ⟨rfl, rfl⟩ := Prod.mk.inj hv
        exact .inl ⟨t, p.1, rfl, hp, rfl⟩
      · subst hb
        -- an opening brace at the last level is where Python raises `RecursionError`
        rcases depth with - | d
        · simp at h
        · rcases hs : skipWs t with - | ⟨e, r1⟩
          · simp [hs] at h
          · simp only [hs] at h
            refine .inr (.inl ⟨t, d, e, r1, rfl, rfl, hs, ?_⟩)
            split_ifs at h with he
            · obtain ⟨rfl, rfl⟩ := Prod.mk.inj (Option.some.inj h)
              exact .inl ⟨he, rfl, rfl⟩
            · obtain ⟨p, hp, hv⟩ := Option.map_eq_some_iff.mp h
              obtain ⟨rfl, rfl⟩ := Prod.mk.inj hv
              exact .inr ⟨p.1, hp, rfl⟩
      · subst ha
        rcases depth with - | d
        · simp at h
        · rcases hs : skipWs t with - | ⟨e, r1⟩
          · simp [hs] at h
          · simp only [hs] at h
            refine .inr (.inr (.inl ⟨t, d, e, r1, rfl, rfl, hs, ?_⟩))
            split_ifs at h with he
            · obtain ⟨rfl, rfl⟩ := Prod.mk.inj (Option.some.inj h)
              exact .inl ⟨he, rfl, rfl⟩
            · obtain ⟨p, hp, hv⟩ := Option.map_eq_some_iff.mp h
              obtain ⟨rfl, rfl⟩ := Prod.mk.inj hv
              exact .inr ⟨p.1, hp, rfl⟩
      · exact .inr (.inr (.inr h))

/-- What a successful call of `elems` has read. -/
theorem elems_cases {fuel depth : ℕ} {s r : PyStr} {xs : List (Json F)}
    (h : elems (fuel + 1) depth s = some (xs, r)) :
    ∃ v r0 c r1, value fuel depth s = some (v, r0) ∧ skipWs r0 = c :: r1 ∧
      (c = ch ']' ∧ xs = [v] ∧ r = r1 ∨
        c = ch ',' ∧ ∃ ys, elems fuel depth (skipWs r1) = some (ys, r) ∧ xs = v :: ys) := by
  rw [elems.eq_def] at h
  rcases hv : value (F := F) fuel depth s with - | ⟨v, r0⟩
  · simp [hv] at h
  · rcases hs : skipWs r0 with - | ⟨c, r1⟩
    · simp [hv, hs] at h
    · simp only [hv, hs] at h
      refine ⟨v, r0, c, r1, rfl, hs, ?_⟩
      split_ifs at h with hc hc'
      · obtain ⟨rfl, rfl⟩ := Prod.mk.inj (Option.some.inj h)
        exact .inl ⟨hc, rfl, rfl⟩
      · obtain ⟨p, hp, hx⟩ := Option.map_eq_some_iff.mp h
        obtain ⟨rfl, rfl⟩ := Prod.mk.inj hx
        exact .inr ⟨hc', p.1, hp, rfl⟩

/-- What a successful call of `members` has read. -/
theorem members_cases {fuel depth : ℕ} {s r : PyStr} {d : Dict (Json F)}
    (h : members (fuel + 1) depth s = some (d, r)) :
    ∃ t k r0 r1 v r2 c r3, s = ch '"' :: t ∧ scanString t = some (k, r0) ∧
      skipWs r0 = ch ':' :: r1 ∧ value fuel depth (skipWs r1) = some (v, r2) ∧ skipWs r2 = c :: r3 ∧
      (c = ch '\x7d' ∧ d = [(k, v)] ∧ r = r3 ∨
        c = ch ',' ∧ ∃ e, members fuel depth (skipWs r3) = some (e, r) ∧ d = (k, v) :: e) := by
  cases s with
  | nil => simp [members] at h
  | cons q t =>
      rw [members.eq_def] at h
      simp only at h
      split_ifs at h with hq
      subst hq
      -- one after the other: the key, the colon, the value, the comma or the brace
      rcases hk : scanString t with - | ⟨k, r0⟩
      · simp [hk] at h
      · rcases hs : skipWs r0 with - | ⟨c1, r1⟩
        · simp [hk, hs] at h
        · simp only [hk, hs] at h
          split_ifs at h with hc1
          subst hc1
          rcases hv : value (F := F) fuel depth (skipWs r1) with - | ⟨v, r2⟩
          · simp [hv] at h
          · rcases hs2 : skipWs r2 with - | ⟨c, r3⟩
            · simp [hv, hs2] at h
            · simp only [hv, hs2] at h
              refine ⟨t, k, r0, r1, v, r2, c, r3, rfl, hk, hs, hv, hs2, ?_⟩
              split_ifs at h with hc hc'
              · obtain ⟨rfl, rfl⟩ := Prod.mk.inj (Option.some.inj h)
                exact .inl ⟨hc, rfl, rfl⟩
              · obtain ⟨p, hp, hx⟩ := Option.map_eq_some_iff.mp h
                obtain ⟨rfl, rfl⟩ := Prod.mk.inj hx
                exact .inr ⟨hc', p.1, hp, rfl⟩

theorem scanString_length {s k r : PyStr} (h : scanString s = some (k, r)) :
    r.length < s.length := by
  obtain ⟨p, hp, hk⟩ := Option.map_eq_some_iff.mp h
  obtain ⟨rfl, rfl⟩ := Prod.mk.inj hk
  exact scanItems_length hp

theorem skipWs_cons_length {s r : PyStr} {c : CodePoint} (h : skipWs s = c :: r) :
    r.length < s.length := by
  have := length_skipWs_le s
  rw [h, List.length_cons] at this
  exact this

/-- **The scanner's invariant.**  What has been read fits the budget, and something has been
read. -/
theorem value_spec (fuel : ℕ) :
    (∀ depth s (v : Json F) r, value fuel depth s = some (v, r) →
      v.Fits depth ∧ r.length < s.length) ∧
    (∀ depth s (xs : List (Json F)) r, elems fuel depth s = some (xs, r) →
      FitsList depth xs ∧ r.length < s.length) ∧
    (∀ depth s (d : Dict (Json F)) r, members fuel depth s = some (d, r) →
      FitsDict depth d ∧ r.length < s.length) := by
  -- the three readers at once; only `value` goes down a level
  induction fuel with
  | zero => exact ⟨by simp [value], by simp [elems], by simp [members]⟩
  | succ fuel ih =>
      obtain ⟨ihV, ihE, ihM⟩ := ih
      refine ⟨fun depth s v r h => ?_, fun depth s xs r h => ?_, fun depth s d r h => ?_⟩
      · rcases value_cases h with ⟨t, t1, rfl, ht, rfl⟩ |
          ⟨t, d, e, r1, rfl, rfl, ht, ⟨-, rfl, rfl⟩ | ⟨es, hes, rfl⟩⟩ |
          ⟨t, d, e, r1, rfl, rfl, ht, ⟨-, rfl, rfl⟩ | ⟨xs, hxs, rfl⟩⟩ | hs
        · have := scanString_length ht
          exact ⟨trivial, by rw [List.length_cons]; omega⟩
        · have := skipWs_cons_length ht
          exact ⟨⟨d.succ_pos, trivial⟩, by rw [List.length_cons]; omega⟩
        · have := skipWs_cons_length ht
          obtain ⟨hfit, hlen⟩ := ihM d _ es r hes
          rw [List.length_cons] at hlen
          exact ⟨⟨d.succ_pos, hfit⟩, by rw [List.length_cons]; omega⟩
        · have := skipWs_cons_length ht
          exact ⟨⟨d.succ_pos, trivial⟩, by rw [List.length_cons]; omega⟩
        · have := skipWs_cons_length ht
          obtain ⟨hfit, hlen⟩ := ihE d _ xs r hxs
          rw [List.length_cons] at hlen
          exact ⟨⟨d.succ_pos, hfit⟩, by rw [List.length_cons]; omega⟩
        · exact scanScalar_spec hs depth
      · obtain ⟨v, r0, c, r1, hv, hs, hcase⟩ := elems_cases h
        obtain ⟨hfit, hlen⟩ := ihV depth s v r0 hv
        have := skipWs_cons_length hs
        rcases hcase with ⟨-, rfl, rfl⟩ | ⟨-, ys, hys, rfl⟩
        · exact ⟨⟨hfit, trivial⟩, by omega⟩
        · obtain ⟨hfits, hlens⟩ := ihE depth _ ys r hys
          have := length_skipWs_le r1
          exact ⟨⟨hfit, hfits⟩, by omega⟩
      · obtain ⟨t, k, r0, r1, v, r2, c, r3, rfl, hk, hs1, hv, hs2, hcase⟩ := members_cases h
        obtain ⟨hfit, hlen⟩ := ihV depth _ v r2 hv
        have h1 := scanString_length hk
        have h2 := skipWs_cons_length hs1
        have h3 := length_skipWs_le r1
        have h4 := skipWs_cons_length hs2
        rw [List.length_cons]
        rcases hcase with ⟨-, rfl, rfl⟩ | ⟨-, e, he, rfl⟩
        · exact ⟨⟨hfit, trivial⟩, by omega⟩
        · obtain ⟨hfits, hlens⟩ := ihM depth _ e r he
          have := length_skipWs_le r3
          exact ⟨⟨hfit, hfits⟩, by omega⟩

theorem value_fits {fuel depth : ℕ} {s r : PyStr} {v : Json F}
    (h : value fuel depth s = some (v, r)) : v.Fits depth :=
  ((value_spec fuel).1 depth s v r h).1

theorem value_length {fuel depth : ℕ} {s r : PyStr} {v : Json F}
    (h : value fuel depth s = some (v, r)) : r.length < s.length :=
  ((value_spec fuel).1 depth s v r h).2

/-! ### The fuel -/

/-- The three functions at two amounts of fuel that are both enough. -/
theorem fuel_enough (f : ℕ) :
    (∀ g depth s, 2 * s.length + 1 ≤ f → f ≤ g →
      value (F := F) g depth s = value f depth s) ∧
    (∀ g depth s, 2 * s.length + 2 ≤ f → f ≤ g →
      elems (F := F) g depth s = elems f depth s) ∧
    (∀ g depth s, 2 * s.length + 2 ≤ f → f ≤ g →
      members (F := F) g depth s = members f depth s) := by
  induction f with
  | zero => exact ⟨fun _ _ _ h => by omega, fun _ _ _ h => by omega, fun _ _ _ h => by omega⟩
  | succ f ih =>
      obtain ⟨ihV, ihE, ihM⟩ := ih
      -- a reader calls another on the text behind at least one code point, or on the same text
      -- with one unit less, so two units for each code point last
      refine ⟨fun g depth s hs hg => ?_, fun g depth s hs hg => ?_, fun g depth s hs hg => ?_⟩
      all_goals obtain ⟨g, rfl⟩ : ∃ k, g = k + 1 := ⟨g - 1, by omega⟩
      · cases s with
        | nil => rw [value, value]
        | cons c t =>
            rw [List.length_cons] at hs
            rw [value.eq_def (g + 1), value.eq_def (f + 1)]
            rcases depth with - | d
            · rfl
            · rcases ht : skipWs t with - | ⟨e, r1⟩
              · simp only [ht]
              · have hlen := skipWs_cons_length ht
                have hE := ihE g d (e :: r1) (by rw [List.length_cons]; omega) (by omega)
                have hM := ihM g d (e :: r1) (by rw [List.length_cons]; omega) (by omega)
                simp only [ht, hE, hM]
      · rw [elems.eq_def (g + 1), elems.eq_def (f + 1)]
        simp only [ihV g depth s (by omega) (by omega)]
        rcases hv : value (F := F) f depth s with - | ⟨v, r0⟩
        · rfl
        · have hlen := value_length hv
          rcases hr : skipWs r0 with - | ⟨c, r1⟩
          · simp only [hr]
          · have h1 := skipWs_cons_length hr
            have h2 := length_skipWs_le r1
            simp only [hr, ihE g depth (skipWs r1) (by omega) (by omega)]
      · cases s with
        | nil => rw [members, members]
        | cons q t =>
            rw [List.length_cons] at hs
            rw [members.eq_def (g + 1), members.eq_def (f + 1)]
            rcases hk : scanString t with - | ⟨k, r0⟩
            · simp only [hk]
            · have h0 := scanString_length hk
              rcases hr : skipWs r0 with - | ⟨c1, r1⟩
              · simp only [hk, hr]
              · have h1 := skipWs_cons_length hr
                have h2 := length_skipWs_le r1
                simp only [hk, hr, ihV g depth (skipWs r1) (by omega) (by omega)]
                rcases hv : value (F := F) f depth (skipWs r1) with - | ⟨v, r2⟩
                · rfl
                · have h3 := value_length hv
                  rcases hr2 : skipWs r2 with - | ⟨c2, r3⟩
                  · simp only [hr2]
                  · have h4 := skipWs_cons_length hr2
                    have h5 := length_skipWs_le r3
                    simp only [hr2, ihM g depth (skipWs r3) (by omega) (by omega)]

/-- **Fuel.**  Two units for each code point are enough: more of it changes nothing. -/
theorem value_fuel {f g : ℕ} (depth : ℕ) {s : PyStr} (hf : 2 * s.length + 1 ≤ f) (hg : f ≤ g) :
    value (F := F) g depth s = value f depth s :=
  (fuel_enough f).1 g depth s hf hg

/-! ### `loads` -/

omit [Runtime F] in
theorem Json.Fits.mono {v : Json F} : ∀ {n m : ℕ}, v.Fits n → n ≤ m → v.Fits m := by
  induction v using Json.induct with
  | arr xs ih =>
      intro n m h hm
      refine ⟨h.1.trans_le hm, fitsList_iff.mpr fun x hx => ?_⟩
      exact ih x hx (fitsList_iff.mp h.2 x hx) (by omega)
  | obj d ih =>
      intro n m h hm
      refine ⟨h.1.trans_le hm, fitsDict_iff.mpr fun e he => ?_⟩
      exact ih e he (fitsDict_iff.mp h.2 e he) (by omega)
  | _ => exact fun h _ => h

omit [Runtime F] in
theorem dedupe_fits {v : Json F} : ∀ {n : ℕ}, v.Fits n → v.dedupe.Fits n := by
  induction v using Json.induct with
  | arr xs ih =>
      intro n h
      refine ⟨h.1, fitsList_iff.mpr ?_⟩
      rw [dedupeList_eq_map]
      rintro _ hmem
      obtain ⟨x, hx, rfl⟩ := List.mem_map.mp hmem
      exact ih x hx (fitsList_iff.mp h.2 x hx)
  | obj d ih =>
      intro n h
      refine ⟨h.1, fitsDict_iff.mpr ?_⟩
      rintro e he
      rcases Dict.mem_update he with he | he
      · exact absurd he List.not_mem_nil
      · rw [dedupeDict_eq_map] at he
        obtain ⟨p, hp, rfl⟩ := List.mem_map.mp he
        exact ih p hp (fitsDict_iff.mp h.2 p hp)
  | _ => exact fun h => h

omit [Runtime F] in
theorem sortKeys_fits {v : Json F} : ∀ {n : ℕ}, v.Fits n → v.sortKeys.Fits n := by
  induction v using Json.induct with
  | arr xs ih =>
      intro n h
      refine ⟨h.1, fitsList_iff.mpr ?_⟩
      rw [sortKeysList_eq_map]
      rintro _ hmem
      obtain ⟨x, hx, rfl⟩ := List.mem_map.mp hmem
      exact ih x hx (fitsList_iff.mp h.2 x hx)
  | obj d ih =>
      intro n h
      refine ⟨h.1, fitsDict_iff.mpr ?_⟩
      rintro e he
      rw [List.mem_insertionSort, sortKeysDict_eq_map] at he
      obtain ⟨p, hp, rfl⟩ := List.mem_map.mp he
      exact ih p hp (fitsDict_iff.mp h.2 p hp)
  | _ => exact fun h => h

omit [Runtime F] in
theorem Json.Clean.sortKeys {v : Json F} : v.Clean → v.sortKeys.Clean := by
  induction v using Json.induct with
  | arr xs ih =>
      intro h
      refine cleanList_iff.mpr ?_
      rw [sortKeysList_eq_map]
      exact List.forall_mem_map.mpr fun x hx => ih x hx (cleanList_iff.mp h x hx)
  | obj d ih =>
      intro h
      obtain ⟨e, he, hnodup, -⟩ := sortKeys_obj h.1
      rw [he]
      refine ⟨hnodup, cleanDict_iff.mpr fun p hp => ?_⟩
      obtain rfl := Json.obj.inj he
      rw [List.mem_insertionSort, sortKeysDict_eq_map] at hp
      obtain ⟨q, hq, rfl⟩ := List.mem_map.mp hp
      have hclean := cleanDict_iff.mp h.2 q hq
      exact ⟨hclean.1, ih q hq hclean.2⟩
  | _ => exact fun h => h

theorem loadsPairs_fits {s : PyStr} {v : Json F} (h : loadsPairs s = some v) :
    v.Fits (Runtime.maxDepth F) := by
  rw [loadsPairs.eq_def] at h
  rcases hv : value (F := F) (2 * s.length + 1) (Runtime.maxDepth F) (skipWs s) with - | ⟨w, r⟩
  · simp [hv] at h
  · simp only [hv] at h
    split_ifs at h
    cases h
    exact value_fits hv

theorem loadsText_fits {s : PyStr} {v : Json F} (h : loadsText s = some v) :
    v.Fits (Runtime.maxDepth F) := by
  rw [loadsText] at h
  split_ifs at h
  obtain ⟨w, hw, rfl⟩ := Option.map_eq_some_iff.mp h
  exact dedupe_fits (loadsPairs_fits hw)

/-- **What was read can be written and read again.** -/
theorem loads_fits {b : Bytes} {v : Json F} (h : loads b = some v) :
    v.Fits (Runtime.maxDepth F) := by
  obtain ⟨s, -, hs⟩ := Option.bind_eq_some_iff.mp h
  exact loadsText_fits hs

end Py
