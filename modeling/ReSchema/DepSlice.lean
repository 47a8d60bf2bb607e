/-
ReSchema/DepSlice.lean

The slices of the comparison, by positions.

`_dep_slice` and `_dep_slice_for_files` walk a canonical stream once more: for
the table of descriptors, for the opener of one of them, and for the calls that
write to it.  `depSliceAt` and `depSliceForFilesAt` keep beside every event of a
slice its index in the stream, since two events of a stream may be equal.

`opener_spec` says which opener the search finds: the last exit with the wanted
result whose last entry had write intent (`OpensTo`).  The table of descriptors
counts fewer exits, because there an exit ends the open call, so the two walks
of one slice can disagree.
-/
import ReSchema.FdTable

namespace ReSchema

open Py

/-! ### Slices with their indices -/

/-- One event of the search in `_chain`, as `chainStep`. -/
def chainStepAt (literal : PyStr) (s : Option (Event × ℕ) × List (Event × ℕ)) (p : Event × ℕ) :
    Option (Event × ℕ) × List (Event × ℕ) :=
  if OpenEntry p.1 then (if writeIntent p.1.sc p.1.args then some p else none, s.2)
  else if p.1.sc ∈ openFamily ∧ p.1.phase = py "exit" ∧ p.1.result = some (some literal) then
    match s.1 with
    | some enter => (s.1, [enter, p])
    | none => s
  else s

/-- The event is a write to the descriptor. -/
def WritesTo (fd : PyStr) (e : Event) : Prop :=
  e.sc ∈ [py "write", py "writev"] ∧ e.args.head? = some fd

instance (fd : PyStr) (e : Event) : Decidable (WritesTo fd e) := by unfold WritesTo; infer_instance

/-- The writes to a descriptor before position `n`. -/
def writesAt (evs : List Event) (fd : PyStr) (n : ℕ) : List (Event × ℕ) :=
  (evs.zipIdx.take n).filter fun p => WritesTo fd p.1

/-- The search in `_chain` before position `n`. -/
def openerAt (evs : List Event) (literal : PyStr) (n : ℕ) :
    Option (Event × ℕ) × List (Event × ℕ) :=
  (evs.zipIdx.take n).foldl (chainStepAt literal) (none, [])

/-- `_chain(evs[:n], literal, fd)`. -/
def chainAt (evs : List Event) (literal fd : PyStr) (n : ℕ) : List (Event × ℕ) :=
  takeLast 6 ((openerAt evs literal n).2 ++ writesAt evs fd n)

/-- `_dep_slice(trace, focus_index)`. -/
def depSliceAt (evs : List Event) (focusIndex : ℕ) : List (Event × ℕ) :=
  match evs[focusIndex]?.bind fun focus => focus.args.head? with
  | none => []
  | some fd => chainAt evs (fdLiteral (fdTable evs) fd) fd (focusIndex + 1)

/-- `_dep_slice_for_files(trace)`. -/
def depSliceForFilesAt (evs : List Event) : List (Event × ℕ) :=
  match (fdTable evs).getLast? with
  | none => []
  | some literal => chainAt evs literal (token "FD" (fdTable evs) literal) evs.length

theorem openerAt_succ (evs : List Event) (literal : PyStr) (n : ℕ) :
    openerAt evs literal (n + 1) = evs[n]?.elim (openerAt evs literal n)
      fun e => chainStepAt literal (openerAt evs literal n) (e, n) := by
  rw [openerAt, List.take_add_one, List.foldl_append, List.getElem?_zipIdx]
  cases evs[n]? with
  | none => rfl
  | some e => simp [openerAt]

theorem writesAt_succ (evs : List Event) (fd : PyStr) (n : ℕ) :
    writesAt evs fd (n + 1) = writesAt evs fd n ++
      (evs[n]?.filter fun e => WritesTo fd e).toList.map fun e => (e, n) := by
  rw [writesAt, List.take_add_one, List.filter_append, List.getElem?_zipIdx, ← writesAt]
  cases evs[n]? with
  | none => rfl
  | some e => by_cases h : WritesTo fd e <;> simp [h, Option.filter_some]

theorem takeLast_map {α β : Type} (f : α → β) (n : ℕ) (xs : List α) :
    (takeLast n xs).map f = takeLast n (xs.map f) := by
  rw [takeLast, takeLast, List.map_drop, List.length_map]

theorem takeLast_of_length_le {α : Type} {n : ℕ} {xs : List α} (h : xs.length ≤ n) :
    takeLast n xs = xs := by
  rw [takeLast, Nat.sub_eq_zero_of_le h, List.drop_zero]

theorem length_takeLast_le {α : Type} (n : ℕ) (xs : List α) : (takeLast n xs).length ≤ n := by
  rw [takeLast, List.length_drop]
  omega

theorem takeLast_concat {α : Type} (n : ℕ) (xs : List α) (x : α) :
    (takeLast (n + 1) (xs ++ [x])).getLast? = some x := by
  rw [takeLast, List.getLast?_drop, if_neg (by simp), List.getLast?_concat]

theorem takeLast_eq_nil {α : Type} {n : ℕ} {xs : List α} :
    takeLast (n + 1) xs = [] ↔ xs = [] := by
  rw [takeLast, List.drop_eq_nil_iff]
  constructor
  · intro h
    exact List.length_eq_zero_iff.mp (by omega)
  · rintro rfl
    exact Nat.zero_le _

/-- The events of the search are those of `_chain`. -/
theorem openerAt_fst (evs : List Event) (literal : PyStr) (n : ℕ) :
    ((openerAt evs literal n).1.map Prod.fst, (openerAt evs literal n).2.map Prod.fst) =
      (evs.take n).foldl (chainStep literal) (none, []) := by
  induction n with
  | zero => rfl
  | succ n ih =>
      rw [openerAt_succ, List.take_add_one, List.foldl_append, ← ih]
      cases evs[n]? with
      | none => rfl
      | some e =>
          show _ = chainStep literal _ e
          rw [Option.elim_some]
          obtain ⟨enter, pair⟩ := openerAt evs literal n
          rw [chainStepAt, chainStep]
          by_cases hentry : e.sc ∈ openFamily ∧ e.phase = py "enter"
          · rw [if_pos hentry, if_pos (show OpenEntry e from hentry)]
            by_cases hw : writeIntent e.sc e.args = true
            · simp [hw]
            · simp [hw]
          · rw [if_neg hentry, if_neg (show ¬ OpenEntry e from hentry)]
            split_ifs
            · cases enter <;> rfl
            · rfl

theorem chainAt_fst (evs : List Event) (literal fd : PyStr) (n : ℕ) :
    (chainAt evs literal fd n).map Prod.fst = chain (evs.take n) literal fd := by
  have hopener : (openerAt evs literal n).2.map Prod.fst =
      ((evs.take n).foldl (chainStep literal) (none, [])).2 :=
    congrArg Prod.snd (openerAt_fst evs literal n)
  have hwrites : ∀ xs : List (Event × ℕ), (xs.filter fun p => WritesTo fd p.1).map Prod.fst =
      (xs.map Prod.fst).filter fun e => WritesTo fd e := fun xs => by
    rw [List.filter_map]
    rfl
  rw [chainAt, takeLast_map, List.map_append, hopener, writesAt, hwrites, List.map_take,
    List.zipIdx_map_fst]
  rfl

/-- The events of the slice are those of `_dep_slice`. -/
theorem depSliceAt_fst (evs : List Event) (i : ℕ) :
    (depSliceAt evs i).map Prod.fst = depSlice evs i := by
  rw [depSliceAt, depSlice]
  cases evs[i]?.bind fun focus => focus.args.head? with
  | none => rfl
  | some fd => exact chainAt_fst _ _ _ _

theorem depSliceForFilesAt_fst (evs : List Event) :
    (depSliceForFilesAt evs).map Prod.fst = depSliceForFiles evs := by
  rw [depSliceForFilesAt, depSliceForFiles]
  cases (fdTable evs).getLast? with
  | none => rfl
  | some literal =>
      show (chainAt _ _ _ _).map _ = _
      rw [chainAt_fst, List.take_length]

/-! ### The opener -/

/-- The last entry into an open call before position `n` is at `y`, and has write intent. -/
def EnteredAt (evs : List Event) (n y : ℕ) : Prop :=
  y < n ∧ (∃ e, evs[y]? = some e ∧ OpenEntry e ∧ writeIntent e.sc e.args = true) ∧
    ∀ m, y < m → m < n → ∀ e, evs[m]? = some e → ¬ OpenEntry e

/-- The exit at `x` returns the literal, after an entry with write intent at `y` and no other
entry since; other exits may stand between the two. -/
def OpensTo (evs : List Event) (literal : PyStr) (y x : ℕ) : Prop :=
  EnteredAt evs x y ∧ ∃ e, evs[x]? = some e ∧ OpenExit e ∧ e.result = some (some literal)

theorem EnteredAt.unique {evs : List Event} {n y y' : ℕ} (h : EnteredAt evs n y)
    (h' : EnteredAt evs n y') : y = y' := by
  obtain ⟨hy, ⟨e, he, hentry, -⟩, hno⟩ := h
  obtain ⟨hy', ⟨e', he', hentry', -⟩, hno'⟩ := h'
  by_contra hne
  rcases Nat.lt_or_gt_of_ne hne with hlt | hlt
  · exact hno y' hlt hy' e' he' hentry'
  · exact hno' y hlt hy e he hentry

theorem enteredAt_succ_of_other {evs : List Event} {n y : ℕ}
    (h : ∀ e, evs[n]? = some e → ¬ OpenEntry e) :
    EnteredAt evs (n + 1) y ↔ EnteredAt evs n y := by
  constructor
  · rintro ⟨hy, ⟨e, he, hentry, hw⟩, hno⟩
    have hne : y ≠ n := by
      rintro rfl
      exact h e he hentry
    exact ⟨by omega, ⟨e, he, hentry, hw⟩, fun m hm hmn => hno m hm (by omega)⟩
  · rintro ⟨hy, he, hno⟩
    refine ⟨by omega, he, fun m hm hmn => ?_⟩
    obtain rfl | hlt : m = n ∨ m < n := by omega
    · exact h
    · exact hno m hm hlt

theorem enteredAt_succ_of_entry {evs : List Event} {n y : ℕ} {e : Event} (he : evs[n]? = some e)
    (h : OpenEntry e) :
    EnteredAt evs (n + 1) y ↔ y = n ∧ writeIntent e.sc e.args = true := by
  constructor
  · rintro ⟨hy, ⟨e', he', -, hw⟩, hno⟩
    obtain rfl | hlt : y = n ∨ y < n := by omega
    · rw [he] at he'
      cases he'
      exact ⟨rfl, hw⟩
    · exact absurd h (hno n hlt (by omega) e he)
  · rintro ⟨rfl, hw⟩
    exact ⟨by omega, ⟨e, he, h, hw⟩, fun m hm hmn => absurd hm (by omega)⟩

/-- What the search holds before position `n`: the last entry, if it had write intent, and the
opener found last. -/
structure Opener (evs : List Event) (literal : PyStr) (n : ℕ)
    (s : Option (Event × ℕ) × List (Event × ℕ)) : Prop where
  enter : ∀ e y, s.1 = some (e, y) ↔ evs[y]? = some e ∧ EnteredAt evs n y
  pair : (s.2 = [] ∧ ∀ y x, x < n → ¬ OpensTo evs literal y x) ∨
    ∃ y x e e', s.2 = [(e, y), (e', x)] ∧ evs[y]? = some e ∧ evs[x]? = some e' ∧ x < n ∧
      OpensTo evs literal y x ∧ ∀ y' x', x < x' → x' < n → ¬ OpensTo evs literal y' x'

/-- A position that opens nothing keeps the opener. -/
theorem Opener.pair_succ {evs : List Event} {literal : PyStr} {n : ℕ}
    {s : Option (Event × ℕ) × List (Event × ℕ)} (h : Opener evs literal n s)
    (hno : ∀ y, ¬ OpensTo evs literal y n) :
    (s.2 = [] ∧ ∀ y x, x < n + 1 → ¬ OpensTo evs literal y x) ∨
      ∃ y x e e', s.2 = [(e, y), (e', x)] ∧ evs[y]? = some e ∧ evs[x]? = some e' ∧ x < n + 1 ∧
        OpensTo evs literal y x ∧ ∀ y' x', x < x' → x' < n + 1 → ¬ OpensTo evs literal y' x' := by
  rcases h.pair with ⟨hnil, hnone⟩ | ⟨y, x, e, e', hs, he, he', hx, hopens, hlast⟩
  · refine .inl ⟨hnil, fun y x hx => ?_⟩
    obtain rfl | hlt : x = n ∨ x < n := by omega
    · exact hno y
    · exact hnone y x hlt
  · refine .inr ⟨y, x, e, e', hs, he, he', by omega, hopens, fun y' x' hx' hn => ?_⟩
    obtain rfl | hlt : x' = n ∨ x' < n := by omega
    · exact hno y'
    · exact hlast y' x' hx' hlt

/-- One event of the search. -/
theorem Opener.step {evs : List Event} {literal : PyStr} {n : ℕ} {e : Event}
    {s : Option (Event × ℕ) × List (Event × ℕ)} (h : Opener evs literal n s)
    (he : evs[n]? = some e) : Opener evs literal (n + 1) (chainStepAt literal s (e, n)) := by
  have hat : ∀ {y}, OpensTo evs literal y n → OpenExit e ∧ e.result = some (some literal) := by
    rintro y ⟨-, e', he', hexit⟩
    rw [he] at he'
    cases he'
    exact hexit
  by_cases hentry : OpenEntry e
  · have hstep : chainStepAt literal s (e, n) =
        (if writeIntent e.sc e.args then some (e, n) else none, s.2) := if_pos hentry
    rw [hstep]
    refine ⟨fun f y => ?_, h.pair_succ fun y hopens => not_entry_of_exit (hat hopens).1 hentry⟩
    rw [enteredAt_succ_of_entry he hentry]
    by_cases hw : writeIntent e.sc e.args = true
    · rw [if_pos hw, Option.some.injEq, Prod.mk.injEq]
      constructor
      · rintro ⟨rfl, rfl⟩
        exact ⟨he, rfl, hw⟩
      · rintro ⟨hf, rfl, -⟩
        rw [he] at hf
        exact ⟨Option.some.inj hf, rfl⟩
    · rw [if_neg hw]
      exact iff_of_false (by simp) fun hf => hw hf.2.2
  · have hother : ∀ e', evs[n]? = some e' → ¬ OpenEntry e' := by
      intro e' he'
      rw [he] at he'
      cases he'
      exact hentry
    have henter : ∀ f y, s.1 = some (f, y) ↔ evs[y]? = some f ∧ EnteredAt evs (n + 1) y :=
      fun f y => by rw [enteredAt_succ_of_other hother, h.enter]
    by_cases hexit : e.sc ∈ openFamily ∧ e.phase = py "exit" ∧ e.result = some (some literal)
    · rcases hs : s.1 with - | ⟨f, y⟩
      · -- no entry with write intent stands before this exit
        have hstep : chainStepAt literal s (e, n) = s := by
          rw [chainStepAt, if_neg hentry, if_pos hexit, hs]
        rw [hstep]
        refine ⟨henter, h.pair_succ fun y hopens => ?_⟩
        obtain ⟨hy, ⟨f, hf, hfentry, hw⟩, hno⟩ := hopens.1
        have := (h.enter f y).mpr ⟨hf, hopens.1⟩
        rw [hs] at this
        cases this
      · have hstep : chainStepAt literal s (e, n) = (s.1, [(f, y), (e, n)]) := by
          rw [chainStepAt, if_neg hentry, if_pos hexit, hs]
        obtain ⟨hf, hent⟩ := (h.enter f y).mp hs
        rw [hstep]
        refine ⟨henter, .inr ⟨y, n, f, e, rfl, hf, he, by omega, ⟨hent, e, he, ⟨hexit.1,
          hexit.2.1⟩, hexit.2.2⟩, fun y' x' hx' hn => absurd hx' (by omega)⟩⟩
    · have hstep : chainStepAt literal s (e, n) = s := by
        rw [chainStepAt, if_neg hentry, if_neg hexit]
      rw [hstep]
      exact ⟨henter, h.pair_succ fun y hopens => hexit ⟨(hat hopens).1.1, (hat hopens).1.2,
        (hat hopens).2⟩⟩

/-- **The opener.**  The search finds the last exit with the wanted result whose last entry had
write intent. -/
theorem opener_spec (evs : List Event) (literal : PyStr) (n : ℕ) :
    Opener evs literal n (openerAt evs literal n) := by
  induction n with
  | zero =>
      refine ⟨fun e y => ?_, .inl ⟨rfl, fun y x hx => absurd hx (by omega)⟩⟩
      exact iff_of_false (by simp [openerAt]) fun h => absurd h.2.1 (by omega)
  | succ n ih =>
      rw [openerAt_succ]
      rcases he : evs[n]? with - | e
      · have hno : ∀ y, ¬ OpensTo evs literal y n := fun y ⟨_, e, he', _⟩ => by
          rw [he] at he'
          cases he'
        refine ⟨fun f y => ?_, ih.pair_succ hno⟩
        rw [enteredAt_succ_of_other (by simp [he])]
        exact ih.enter f y
      · exact ih.step he

theorem EnteredAt.of_pendingAt {evs : List Event} {n : ℕ} (h : PendingAt evs n) :
    ∃ y, EnteredAt evs n y := by
  obtain ⟨y, hy, e, he, hentry, hw, hquiet⟩ := h
  exact ⟨y, hy, ⟨e, he, hentry, hw⟩, fun m hm hmn e' he' => (hquiet m hm hmn e' he').1⟩

/-- A completed open is one that the search finds. -/
theorem ReturnedAt.opensTo {evs : List Event} {x : ℕ} {a : PyStr} (h : ReturnedAt evs x a) :
    ∃ y, OpensTo evs a y x := by
  obtain ⟨hpend, e, he, hexit, hres, -⟩ := h
  obtain ⟨y, hy⟩ := EnteredAt.of_pendingAt hpend
  exact ⟨y, hy, e, he, hexit, hres⟩

/-! ### The chain -/

theorem mem_writesAt {evs : List Event} {fd : PyStr} {n : ℕ} {p : Event × ℕ} :
    p ∈ writesAt evs fd n ↔ evs[p.2]? = some p.1 ∧ p.2 < n ∧ WritesTo fd p.1 := by
  induction n with
  | zero => exact iff_of_false (by simp [writesAt]) (by simp)
  | succ n ih =>
      have hnew : p ∈ (evs[n]?.filter fun e => WritesTo fd e).toList.map (fun e => (e, n)) ↔
          p.2 = n ∧ evs[n]? = some p.1 ∧ WritesTo fd p.1 := by
        obtain ⟨e, m⟩ := p
        simp only [List.mem_map, Option.mem_toList, Option.filter_eq_some_iff,
          decide_eq_true_eq, Prod.mk.injEq]
        constructor
        · rintro ⟨e, ⟨he, hw⟩, rfl, rfl⟩
          exact ⟨rfl, he, hw⟩
        · rintro ⟨rfl, he, hw⟩
          exact ⟨e, ⟨he, hw⟩, rfl, rfl⟩
      rw [writesAt_succ, List.mem_append, ih, hnew]
      constructor
      · rintro (⟨he, hn, hw⟩ | ⟨rfl, he, hw⟩)
        · exact ⟨he, by omega, hw⟩
        · exact ⟨he, by omega, hw⟩
      · rintro ⟨he, hn, hw⟩
        obtain heq | hlt : p.2 = n ∨ p.2 < n := by omega
        · exact .inr ⟨heq, heq ▸ he, hw⟩
        · exact .inl ⟨he, hlt, hw⟩

theorem not_open_of_write {fd : PyStr} {e : Event} (h : WritesTo fd e) : e.sc ∉ openFamily := by
  rcases List.mem_cons.mp h.1 with hs | hs
  · rw [hs]
    decide
  · rw [List.mem_singleton.mp hs]
    decide

theorem length_openerAt_le (evs : List Event) (literal : PyStr) (n : ℕ) :
    (openerAt evs literal n).2.length ≤ 2 := by
  rcases (opener_spec evs literal n).pair with ⟨hnil, -⟩ | ⟨y, x, e, e', hs, -⟩
  · simp [hnil]
  · simp [hs]

/-- With at most four writes nothing is cut off. -/
theorem chainAt_few {evs : List Event} {fd : PyStr} {n : ℕ} (literal : PyStr)
    (h : (writesAt evs fd n).length ≤ 4) :
    chainAt evs literal fd n = (openerAt evs literal n).2 ++ writesAt evs fd n := by
  have hopener := length_openerAt_le evs literal n
  apply takeLast_of_length_le
  rw [List.length_append]
  omega

theorem mem_chainAt {evs : List Event} {literal fd : PyStr} {n : ℕ} {p : Event × ℕ}
    (h : p ∈ chainAt evs literal fd n) :
    evs[p.2]? = some p.1 ∧ p.2 < n ∧ (p.1.sc ∈ openFamily ∨ WritesTo fd p.1) := by
  rcases List.mem_append.mp (List.mem_of_mem_drop h) with h | h
  · rcases (opener_spec evs literal n).pair with ⟨hnil, -⟩ | ⟨y, x, e, e', hs, he, he', hx, ho, -⟩
    · rw [hnil] at h
      cases h
    · obtain ⟨⟨hy, ⟨f, hf, hentry, -⟩, -⟩, f', hf', hexit, -⟩ := ho
      rw [he] at hf
      rw [he'] at hf'
      cases hf
      cases hf'
      rw [hs, List.mem_pair] at h
      rcases h with rfl | rfl
      · exact ⟨he, by dsimp only; omega, .inl hentry.1⟩
      · exact ⟨he', hx, .inl hexit.1⟩
  · obtain ⟨he, hn, hw⟩ := mem_writesAt.mp h
    exact ⟨he, hn, .inr hw⟩

/-- A chain with few writes starts with the opener that the search finds. -/
theorem chainAt_prefix_iff {evs : List Event} {literal fd : PyStr} {n y x : ℕ}
    (hfew : (writesAt evs fd n).length ≤ 4) (hy : ∃ e, evs[y]? = some e ∧ e.sc ∈ openFamily) :
    [y, x] <+: (chainAt evs literal fd n).map Prod.snd ↔
      x < n ∧ OpensTo evs literal y x ∧
        ∀ y' x', x < x' → x' < n → ¬ OpensTo evs literal y' x' := by
  rw [chainAt_few literal hfew]
  rcases (opener_spec evs literal n).pair with ⟨hnil, hnone⟩ |
    ⟨y₁, x₁, e, e', hs, he, he', hx₁, hopens, hlast⟩
  · -- without an opener the chain has writes only, and `y` is no write
    rw [hnil, List.nil_append]
    refine iff_of_false (fun hpre => ?_) fun h => hnone y x h.1 h.2.1
    obtain ⟨p, hp, rfl⟩ := List.mem_map.mp (hpre.subset (List.mem_cons_self))
    obtain ⟨hat, -, hw⟩ := mem_writesAt.mp hp
    obtain ⟨f, hf, hsc⟩ := hy
    rw [hat] at hf
    cases hf
    exact not_open_of_write hw hsc
  · have hpos : ((openerAt evs literal n).2 ++ writesAt evs fd n).map Prod.snd =
        y₁ :: x₁ :: (writesAt evs fd n).map Prod.snd := by
      rw [hs]
      rfl
    rw [hpos, List.cons_prefix_cons, List.cons_prefix_cons]
    constructor
    · rintro ⟨rfl, rfl, -⟩
      exact ⟨hx₁, hopens, hlast⟩
    · rintro ⟨hx, ho, hl⟩
      obtain rfl : x = x₁ := by
        by_contra hne
        rcases Nat.lt_or_gt_of_ne hne with hlt | hlt
        · exact hl y₁ x₁ hlt hx₁ hopens
        · exact hlast y x hlt hx ho
      exact ⟨ho.1.unique hopens.1, rfl, List.nil_prefix⟩

/-! ### The table of the slices -/

theorem fdTable_eq (evs : List Event) : fdTable evs = (walkTo evs evs.length).fds := by
  rw [walkTo, List.take_length]
  rfl

theorem ReturnedAt.lt_length {evs : List Event} {j : ℕ} {a : PyStr} (h : ReturnedAt evs j a) :
    j < evs.length := by
  obtain ⟨-, e, he, -⟩ := h
  exact (List.getElem?_eq_some_iff.mp he).1

theorem mem_fdTable {evs : List Event} {a : PyStr} :
    a ∈ fdTable evs ↔ ∃ j, ReturnedAt evs j a := by
  rw [fdTable_eq, mem_walkTo_fds]
  exact ⟨fun ⟨j, _, h⟩ => ⟨j, h⟩, fun ⟨j, h⟩ => ⟨j, h.lt_length, h⟩⟩

/-- The number of descriptors that were returned before position `j`. -/
noncomputable def returnedBefore (evs : List Event) (j : ℕ) : ℕ :=
  {x | ∃ m < j, ReturnedAt evs m x}.ncard

theorem ordinal_fdTable {evs : List Event} {j : ℕ} {a : PyStr} (h : FirstReturned evs j a) :
    ordinal (fdTable evs) a = returnedBefore evs j := by
  rw [fdTable_eq]
  exact h.ordinal_eq h.1.lt_length

/-- A name that no descriptor has stands for itself. -/
theorem fdLiteral_of_head {T : List PyStr} {s : PyStr} (h : s.head? ≠ some (ch 'F')) :
    fdLiteral T s = s := by
  have hnone : T.find? (fun a => token "FD" T a = s) = none := by
    rw [List.find?_eq_none]
    intro a _ ha
    have hs : token "FD" T a = s := by simpa using ha
    exact h (hs ▸ rfl)
  rw [fdLiteral, hnone]
  rfl

/-- The literal of a name is the one with its number. -/
theorem fdLiteral_fdName_iff {T : List PyStr} {k : ℕ} {a : PyStr} (ha : a.head? ≠ some (ch 'F')) :
    fdLiteral T (fdName k) = a ↔ a ∈ T ∧ ordinal T a = k := by
  rw [fdLiteral]
  rcases hfind : T.find? (fun a => token "FD" T a = fdName k) with - | b
  · rw [List.find?_eq_none] at hfind
    refine iff_of_false ?_ fun ⟨hmem, hord⟩ => hfind a hmem ?_
    · rintro rfl
      exact ha rfl
    · simp [fdName_eq_token, hord]
  · have hmem := List.mem_of_find?_eq_some hfind
    have hb : ordinal T b = k := by
      have := List.find?_some hfind
      simpa [fdName_eq_token, fdName_inj] using this
    rw [Option.getD_some, ← hb]
    constructor
    · rintro rfl
      exact ⟨hmem, rfl⟩
    · rintro ⟨-, hord⟩
      exact ((ordinal_inj hmem).mp hord.symm)

/-- The descriptor that is returned for the first time last. -/
def LastNew (evs : List Event) (a : PyStr) : Prop :=
  ∃ j, FirstReturned evs j a ∧ ∀ j' b, FirstReturned evs j' b → j' ≤ j

theorem walkTo_getLast? (evs : List Event) (n : ℕ) (a : PyStr) :
    (walkTo evs n).fds.getLast? = some a ↔
      ∃ j < n, FirstReturned evs j a ∧ ∀ j' < n, ∀ b, FirstReturned evs j' b → j' ≤ j := by
  induction n with
  | zero => exact iff_of_false (by simp [walkTo, openWalk, OpenWalk.start]) (by simp)
  | succ n ih =>
      have hold : (∀ b, ¬ FirstReturned evs n b) →
          ((∃ j < n + 1, FirstReturned evs j a ∧
              ∀ j' < n + 1, ∀ b, FirstReturned evs j' b → j' ≤ j) ↔
            ∃ j < n, FirstReturned evs j a ∧ ∀ j' < n, ∀ b, FirstReturned evs j' b → j' ≤ j) := by
        intro hno
        constructor
        · rintro ⟨j, hj, hfirst, hlast⟩
          obtain rfl | hlt : j = n ∨ j < n := by omega
          · exact absurd hfirst (hno a)
          · exact ⟨j, hlt, hfirst, fun j' hj' => hlast j' (by omega)⟩
        · rintro ⟨j, hj, hfirst, hlast⟩
          refine ⟨j, by omega, hfirst, fun j' hj' b hb => ?_⟩
          obtain rfl | hlt : j' = n ∨ j' < n := by omega
          · exact absurd hb (hno b)
          · exact hlast j' hlt b hb
      rcases walkTo_fds_succ evs n with ⟨b, hb, hfds⟩ | ⟨hnone, hfds⟩
      · -- a literal that returns again keeps its place, a new one goes to the end
        by_cases hmem : b ∈ (walkTo evs n).fds
        · rw [hfds, sight_of_mem hmem, ih, hold]
          intro c hc
          obtain ⟨m, hm, hat⟩ := mem_walkTo_fds.mp hmem
          exact hc.2 m hm (hb.unique hc.1 ▸ hat)
        · have hfirst : FirstReturned evs n b :=
            ⟨hb, fun m hm hat => hmem (mem_walkTo_fds.mpr ⟨m, hm, hat⟩)⟩
          rw [hfds, sight, if_neg hmem, List.getLast?_concat, Option.some.injEq]
          constructor
          · rintro rfl
            exact ⟨n, by omega, hfirst, fun j' hj' _ _ => by omega⟩
          · rintro ⟨j, hj, hja, hlast⟩
            obtain rfl : n = j := le_antisymm (hlast n (by omega) b hfirst) (by omega)
            exact hb.unique hja.1
      · rw [hfds, ih, hold]
        exact fun c hc => hnone c hc.1

/-- **The last entry of the table.** -/
theorem fdTable_getLast? {evs : List Event} {a : PyStr} :
    (fdTable evs).getLast? = some a ↔ LastNew evs a := by
  rw [fdTable_eq, walkTo_getLast?]
  constructor
  · rintro ⟨j, -, hfirst, hlast⟩
    exact ⟨j, hfirst, fun j' b hb => hlast j' hb.1.lt_length b hb⟩
  · rintro ⟨j, hfirst, hlast⟩
    exact ⟨j, hfirst.1.lt_length, hfirst, fun j' _ b hb => hlast j' b hb⟩

end ReSchema
