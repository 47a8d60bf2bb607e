/-
ReSchema/RegradeMain.lean

The command that re-grades a project (`regrade.py`, `main`).

It prints a line of JSON for each row, and counts the rows by what became of
them.  A run and the number of a submission narrow the rows down before any
evidence is read, so a narrower command may succeed where a wider one raises.

  * `regrade_narrowed`: where the wider one succeeds, the narrower one has those
    of its rows that were asked for;
  * `regradeMain_totals`: the totals can be read, and every row is in just one.
-/
import ReSchema.Py.Sorted
import ReSchema.RegradeIsolation
import ReSchema.Spec

namespace ReSchema

open Py

section Main

variable {F : Type}

/-- A row, with the keys that are set. -/
def Row.toJson (r : Row F) : Json F :=
  .obj ([(py "run", .str r.run), (py "submission", .int r.submission),
      (py "check", .str r.check)] ++
    (r.refused.map fun text => (py "refused", Json.str text)).toList ++
    (r.recorded.map fun status => (py "recorded", status)).toList ++
    (r.checkerVersion.map fun v => (py "checker_version",
      Json.obj [(py "recorded", .str v.1), (py "current", .str v.2)])).toList ++
    (r.unreplayable.map fun text => (py "unreplayable", Json.str text)).toList ++
    (r.regraded.map fun status => (py "regraded", Json.str status)).toList ++
    (r.holds.map fun b => (py "holds", Json.bool b)).toList ++
    (r.feedback.map fun v => (py "feedback", v)).toList)

/-- Where a row counts, with `none` for a `KeyError`. -/
def Row.total (r : Row F) : Option PyStr :=
  if r.refused.isSome then some (py "refused")
  else if r.unreplayable.isSome then some (py "unreplayable")
  else r.holds.map fun b => if b then py "holds" else py "flipped"

/-- `Counter(keys)`. -/
def counter (keys : List PyStr) : Dict ℕ :=
  keys.foldl (fun d k => d.set k ((d.lookup k).getD 0 + 1)) []

/-- `main(argv)`: the lines on stdout, and the one on stderr. -/
def regradeMain [Runtime F] (host : Host) (ledger : Ledger) (domain : Domain F) (flt : RowFilter) :
    Option (List PyStr × PyStr) := do
  let rows ← regrade host ledger domain flt
  let totals ← rows.mapM Row.total
  return (rows.map fun r => dumpsSorted plain r.toJson ++ [ch '\n'],
    dumpsSorted plain (.obj ((counter totals).map fun e => (e.1, Json.int (F := F) e.2))) ++ [ch '\n'])

end Main

/-! ### Narrower commands -/

/-- The row is asked for. -/
def RowFilter.admits {F : Type} (flt : RowFilter) (r : Row F) : Bool :=
  flt.run.all (· = r.run) && flt.submission.all (· = r.submission)

/-- What the one asks for, the other one asks for, too. -/
structure RowFilter.Narrows (flt' flt : RowFilter) : Prop where
  run : ∀ r, flt.run = some r → flt'.run = some r
  submission : ∀ k, flt.submission = some k → flt'.submission = some k

section Narrowed

variable {F : Type} [Runtime F] {host : Host} {ledger : Ledger} {domain : Domain F}
  {flt flt' : RowFilter}

/-- One operation. -/
theorem regradeOperation_narrowed (hle : flt'.Narrows flt) {op : Operation} {found : Option (Row F)}
    (h : regradeOperation host ledger domain flt op = some found) :
    regradeOperation host ledger domain flt' op = some (found.filter flt'.admits) := by
  rw [regradeOperation] at h ⊢
  rcases hmatch : matchCheck F op.operationId with - | ⟨run, n, name⟩
  · simp only [hmatch] at h ⊢
    rw [← Option.some.inj h]
    rfl
  simp only [hmatch] at h ⊢
  split_ifs at h with hkind hrun
  · rw [if_pos hkind, ← Option.some.inj h]
    rfl
  · -- the wider one asks for another run already
    obtain ⟨r, hr, hne⟩ := (Option.any_eq_true _ _).mp hrun
    have hrun' : flt'.run.any (· ≠ run) = true := by
      rw [hle.run r hr]
      exact hne
    rw [if_neg hkind, if_pos hrun', ← Option.some.inj h]
    rfl
  · rw [if_neg hkind]
    obtain ⟨number, hnumber, h⟩ := Option.bind_eq_some_iff.mp h
    have hrow : ∀ row, found = some row → row.run = run ∧ row.submission = number := by
      rintro row rfl
      split_ifs at h with hsub
      · cases h
      obtain ⟨row', hrow, hsame⟩ := Option.map_eq_some_iff.mp h
      obtain rfl := Option.some.inj hsame
      obtain ⟨hrun, hsubmission, -⟩ := regradeCheck_of hrow
      exact ⟨hrun, hsubmission⟩
    have hout : ¬ ((∀ r, flt'.run = some r → r = run) ∧ ∀ k, flt'.submission = some k → k = number) →
        found.filter flt'.admits = none := by
      intro hnot
      rcases found with - | row
      · rfl
      obtain ⟨rfl, rfl⟩ := hrow row rfl
      rw [Option.filter_some, if_neg]
      simpa [RowFilter.admits, Option.all_eq_true] using hnot
    by_cases hrun' : flt'.run.any (· ≠ run) = true
    · rw [if_pos hrun', hout]
      rintro ⟨hr, -⟩
      obtain ⟨r, hsome, hne⟩ := (Option.any_eq_true _ _).mp hrun'
      exact (decide_eq_true_eq.mp hne) (hr r hsome)
    rw [if_neg hrun', hnumber, Option.bind_eq_bind, Option.bind_some]
    by_cases hsub' : flt'.submission.any (· ≠ number) = true
    · rw [if_pos hsub', hout]
      rintro ⟨-, hk⟩
      obtain ⟨k, hsome, hne⟩ := (Option.any_eq_true _ _).mp hsub'
      exact (decide_eq_true_eq.mp hne) (hk k hsome)
    -- the narrower one goes on to the evidence, so the wider one did
    have hsub : ¬ flt.submission.any (· ≠ number) = true := by
      intro hsub
      obtain ⟨k, hsome, hne⟩ := (Option.any_eq_true _ _).mp hsub
      rw [hle.submission k hsome] at hsub'
      exact hsub' hne
    rw [if_neg hsub] at h
    rw [if_neg hsub', h]
    obtain ⟨row, -, rfl⟩ := Option.map_eq_some_iff.mp h
    obtain ⟨rfl, rfl⟩ := hrow row rfl
    have hadmits : flt'.admits row = true := by
      simp only [Option.any_eq_true, not_exists, not_and, decide_eq_true_eq, not_not] at hrun' hsub'
      simpa [RowFilter.admits, Option.all_eq_true] using And.intro hrun' hsub'
    rw [Option.filter_some, if_pos hadmits]

/-- **A narrower re-grade.** -/
theorem regrade_narrowed (hle : flt'.Narrows flt) {rows : List (Row F)}
    (h : regrade host ledger domain flt = some rows) :
    regrade host ledger domain flt' = some (rows.filter flt'.admits) := by
  obtain ⟨found, hfound, rfl⟩ := Option.map_eq_some_iff.mp h
  have hnarrowed : ledger.operations.mapM (regradeOperation host ledger domain flt') =
      some (found.map fun f => f.filter flt'.admits) := by
    rw [mapM_some, List.forall₂_map_right_iff]
    exact related_imp (mapM_some.mp hfound) fun op _ f hf => regradeOperation_narrowed hle hf
  rw [regrade, hnarrowed, Option.map_some]
  rw [List.filter_filterMap, List.filterMap_map]
  rfl

end Narrowed

/-! ### Totals -/

theorem lookup_counted (keys : List PyStr) (d : Dict ℕ) (k : PyStr) :
    (keys.foldl (fun d k => d.set k ((d.lookup k).getD 0 + 1)) d).lookup k =
      if k ∈ keys then some ((d.lookup k).getD 0 + keys.count k) else d.lookup k := by
  induction keys generalizing d with
  | nil => simp
  | cons l keys ih =>
      rw [List.foldl_cons, ih]
      rcases eq_or_ne k l with rfl | hne
      · rw [Dict.lookup_set_self, Option.getD_some, if_pos List.mem_cons_self, List.count_cons_self]
        by_cases hmem : k ∈ keys
        · rw [if_pos hmem, add_assoc, add_comm 1]
        · rw [if_neg hmem, List.count_eq_zero_of_not_mem hmem, zero_add]
      · rw [Dict.lookup_set_of_ne _ _ hne, List.count_cons_of_ne hne.symm]
        simp [hne]

theorem lookup_counter (keys : List PyStr) (k : PyStr) :
    (counter keys).lookup k = if k ∈ keys then some (keys.count k) else none := by
  rw [counter, lookup_counted]
  simp

theorem nodup_counter (keys : List PyStr) : (counter keys).keys.Nodup := by
  have hall : ∀ d : Dict ℕ, d.keys.Nodup →
      (Dict.keys (keys.foldl (fun d k => d.set k ((d.lookup k).getD 0 + 1)) d)).Nodup := by
    induction keys with
    | nil => exact fun d hd => hd
    | cons k keys ih => exact fun d hd => ih _ (Dict.nodup_keys_set hd _ _)
  exact hall [] List.nodup_nil

/-- The rows of one kind as they stand in the totals, where nothing is said of none. -/
def shownCount {F : Type} (n : ℕ) : Option (Json F) := if n = 0 then none else some (.int n)

section Totals

variable {F : Type}

/-- Where the rows of a re-grade count. -/
theorem Row.Settled.total_eq {r : Row F} (h : r.Settled) :
    (r.total = some (py "refused") ↔ r.refused.isSome = true) ∧
      (r.total = some (py "unreplayable") ↔ r.unreplayable.isSome = true) ∧
      (r.total = some (py "holds") ↔ r.holds = some true) ∧
      (r.total = some (py "flipped") ↔ r.holds = some false) ∧ r.total.isSome = true := by
  have hne : py "refused" ≠ py "unreplayable" ∧ py "refused" ≠ py "holds" ∧
      py "refused" ≠ py "flipped" ∧ py "unreplayable" ≠ py "holds" ∧
      py "unreplayable" ≠ py "flipped" ∧ py "holds" ≠ py "flipped" := by decide
  obtain ⟨h1, h2, h3, h4, h5, h6⟩ := hne
  cases h with
  | refused hr hu hh => simp [Row.total, hr, hu, hh, h1, h2, h3]
  | unreplayable hr hu hh => simp [Row.total, hr, hu, hh, h1.symm, h4, h5]
  | holds hr hu hh =>
      obtain ⟨b, hb⟩ := Option.isSome_iff_exists.mp hh
      cases b <;> simp [Row.total, hr, hu, hb, h2.symm, h3.symm, h4.symm, h5.symm, h6, h6.symm]

theorem mem_kinds_of_total {r : Row F} {k : PyStr} (h : r.total = some k) :
    k ∈ [py "refused", py "unreplayable", py "holds", py "flipped"] := by
  rw [Row.total] at h
  split_ifs at h
  · simp [← Option.some.inj h]
  · simp [← Option.some.inj h]
  · obtain ⟨b, -, rfl⟩ := Option.map_eq_some_iff.mp h
    cases b <;> simp

/-- Every row counts once. -/
theorem sum_totals {rows : List (Row F)} (h : ∀ r ∈ rows, r.Settled) :
    (rows.countP fun r => r.refused.isSome) + (rows.countP fun r => r.unreplayable.isSome) +
      (rows.countP fun r => r.holds = some true) + (rows.countP fun r => r.holds = some false) =
        rows.length := by
  induction rows with
  | nil => rfl
  | cons r rows ih =>
      obtain ⟨hr, h⟩ := List.forall_mem_cons.mp h
      have hrest := ih h
      simp only [List.countP_cons, List.length_cons]
      cases hr with
      | refused hr hu hh =>
          simp only [hr, hu, hh]
          simp
          omega
      | unreplayable hr hu hh =>
          simp only [hr, hu, hh]
          simp
          omega
      | holds hr hu hh =>
          obtain ⟨b, hb⟩ := Option.isSome_iff_exists.mp hh
          cases b
          all_goals
            simp only [hr, hu, hb]
            simp
            omega

theorem count_totals {rows : List (Row F)} {totals : List PyStr}
    (h : List.Forall₂ (fun r t => r.total = some t) rows totals) (k : PyStr) :
    totals.count k = rows.countP fun r => r.total = some k := by
  induction h with
  | nil => rfl
  | @cons r t rows totals hrt _ ih =>
      rw [List.count_cons, List.countP_cons, ih, hrt]
      simp

theorem lookup_ints (d : Dict ℕ) (k : PyStr) :
    (d.map fun e => (e.1, Json.int (F := F) e.2)).lookup k = (d.lookup k).map fun n => .int n := by
  induction d with
  | nil => rfl
  | cons e d ih =>
      rw [List.map_cons, List.lookup_cons, List.lookup_cons]
      cases k == e.1
      · exact ih
      · rfl

variable [Runtime F] {host : Host} {ledger : Ledger} {domain : Domain F} {flt : RowFilter}

/-- **What the command prints.**  Where the re-grade succeeds, the command does.  A row that JSON
can carry is read back from its line, with its keys in order.  The totals are read back, too: they
have the number of the rows that were refused, that cannot be replayed, that hold and that flipped,
and every row is one of these. -/
theorem regradeMain_totals [LawfulRuntime F] {rows : List (Row F)}
    (h : regrade host ledger domain flt = some rows) (hrows : rows.length < 2 ^ 64) :
    ∃ (lines : List PyStr) (totals : PyStr) (d : Dict (Json F)),
      regradeMain host ledger domain flt = some (lines, totals) ∧
      List.Forall₂ (fun r line => r.toJson.Fits (Runtime.maxDepth F) → r.toJson.Clean →
        loads (encode line) = some r.toJson.sortKeys) rows lines ∧
      loads (encode totals) = some (.obj d) ∧
      d.lookup (py "refused") = shownCount (rows.countP fun r => r.refused.isSome) ∧
      d.lookup (py "unreplayable") = shownCount (rows.countP fun r => r.unreplayable.isSome) ∧
      d.lookup (py "holds") = shownCount (rows.countP fun r => r.holds = some true) ∧
      d.lookup (py "flipped") = shownCount (rows.countP fun r => r.holds = some false) ∧
      (rows.countP fun r => r.refused.isSome) + (rows.countP fun r => r.unreplayable.isSome) +
        (rows.countP fun r => r.holds = some true) + (rows.countP fun r => r.holds = some false) =
          rows.length := by
  have hsettled : ∀ r ∈ rows, r.Settled := by
    intro r hr
    obtain ⟨op, -, hop⟩ := (mem_regrade h).mp hr
    exact regradeOperation_settled hop
  obtain ⟨totals, htotals⟩ := Option.isSome_iff_exists.mp
    (isSome_mapM.mpr fun r hr => (hsettled r hr).total_eq.2.2.2.2)
  have hrel := mapM_some.mp htotals
  -- the counts, as they are written and as they are read
  have hnodup : (Dict.keys ((counter totals).map fun e => (e.1, Json.int (F := F) e.2))).Nodup := by
    simpa [Dict.keys, Function.comp_def] using nodup_counter totals
  obtain ⟨d, hd, -, hlookup⟩ := sortKeys_obj hnodup
  have hcount : ∀ k, (d.lookup k : Option (Json F)) =
      shownCount (rows.countP fun r => r.total = some k) := by
    intro k
    rw [hlookup, lookup_ints, lookup_counter, shownCount, ← count_totals hrel]
    split_ifs with hmem hzero hzero
    · exact absurd hzero (List.count_pos_iff.mpr hmem).ne'
    · rfl
    · rfl
    · exact absurd (List.count_eq_zero_of_not_mem hmem) hzero
  have hkind : ∀ {k : PyStr} {p : Row F → Bool}, (∀ r ∈ rows, r.total = some k ↔ p r = true) →
      (rows.countP fun r => r.total = some k) = rows.countP p := by
    intro k p hp
    exact List.countP_congr fun r hr => by simpa using hp r hr
  have hrefused := hkind fun r hr => (hsettled r hr).total_eq.1
  have hunreplayable := hkind fun r hr => (hsettled r hr).total_eq.2.1
  have hholds := hkind (p := fun r => decide (r.holds = some true)) fun r hr =>
    (hsettled r hr).total_eq.2.2.1.trans decide_eq_true_iff.symm
  have hflipped := hkind (p := fun r => decide (r.holds = some false)) fun r hr =>
    (hsettled r hr).total_eq.2.2.2.1.trans decide_eq_true_iff.symm
  have hfits : (Json.obj ((counter totals).map fun e => (e.1, Json.int (F := F) e.2))).Fits
      (Runtime.maxDepth F) := by
    have hdepth := LawfulRuntime.maxDepth_le (F := F)
    refine ⟨by omega, fitsDict_iff.mpr (List.forall_mem_map.mpr fun e he => ?_)⟩
    have hlookup := Dict.lookup_eq_some_of_mem (nodup_counter totals) he
    rw [lookup_counter] at hlookup
    split_ifs at hlookup with hmem
    have hle := List.count_le_length (a := e.1) (l := totals)
    rw [Option.some.inj hlookup, ← hrel.length_eq] at hle
    exact natAbs_lt_digits64 (by simpa using hle.trans_lt hrows)
  have hclean : (Json.obj ((counter totals).map fun e => (e.1, Json.int (F := F) e.2))).Clean := by
    refine ⟨hnodup, cleanDict_iff.mpr (List.forall_mem_map.mpr fun e he => ?_)⟩
    have hlookup := Dict.lookup_eq_some_of_mem (nodup_counter totals) he
    rw [lookup_counter] at hlookup
    split_ifs at hlookup with hmem
    obtain ⟨r, -, hr⟩ := related_left hrel hmem
    have hplain : ∀ k ∈ [py "refused", py "unreplayable", py "holds", py "flipped"],
        joinPairs k = k := by decide
    exact ⟨hplain _ (mem_kinds_of_total hr), trivial⟩
  refine ⟨rows.map fun r => dumpsSorted plain r.toJson ++ [ch '\n'], _, d, ?_, ?_,
    (loads_sorted_line plain_blank hfits hclean).trans (congrArg some hd),
    (hcount _).trans (congrArg shownCount hrefused),
    (hcount _).trans (congrArg shownCount hunreplayable),
    (hcount _).trans (congrArg shownCount hholds),
    (hcount _).trans (congrArg shownCount hflipped), ?_⟩
  · rw [regradeMain, h, Option.bind_eq_bind, Option.bind_some, htotals]
    rfl
  · rw [List.forall₂_map_right_iff, List.forall₂_same]
    exact fun r _ hr hc => loads_sorted_line plain_blank hr hc
  · exact sum_totals hsettled

end Totals

/-! ### A project with one check in each of two runs -/

theorem regrade_parity : regrade idleHost (parityLedger [parityCheck (py "r"), parityCheck (py "q")])
    parityDomain ⟨none, none⟩ = some [parityRow (py "r"), parityRow (py "q")] := by
  have hrow : ∀ run, matchCheck ZeroFloat (parityCheck run).operationId =
        some (run, py "1", py "program-replay") →
      regradeOperation idleHost (parityLedger [parityCheck (py "r"), parityCheck (py "q")])
        parityDomain ⟨none, none⟩ (parityCheck run) = some (some (parityRow run)) :=
    fun run h => parity_row (parity_selected h)
  rw [regrade, show (parityLedger [parityCheck (py "r"), parityCheck (py "q")]).operations =
      [parityCheck (py "r"), parityCheck (py "q")] from rfl, List.mapM_cons,
    hrow (py "r") (by decide +kernel), List.mapM_cons, hrow (py "q") (by decide +kernel)]
  rfl

/-- One of the two runs. -/
theorem regrade_narrowed_parity :
    regrade idleHost (parityLedger [parityCheck (py "r"), parityCheck (py "q")]) parityDomain
      ⟨some (py "q"), none⟩ = some [parityRow (py "q")] := by
  have hnarrows : RowFilter.Narrows ⟨some (py "q"), none⟩ ⟨none, none⟩ := ⟨by simp, by simp⟩
  exact regrade_narrowed hnarrows regrade_parity

theorem regradeMain_totals_parity : ∃ (lines : List PyStr) (totals : PyStr)
    (d : Dict (Json ZeroFloat)),
    regradeMain idleHost (parityLedger [parityCheck (py "r"), parityCheck (py "q")]) parityDomain
      ⟨none, none⟩ = some (lines, totals) ∧
      loads (encode totals) = some (.obj d) ∧ d.lookup (py "holds") = some (.int 2) := by
  obtain ⟨lines, totals, d, hmain, -, hread, -, -, hholds, -⟩ :=
    regradeMain_totals regrade_parity (by decide)
  exact ⟨lines, totals, d, hmain, hread, hholds⟩

end ReSchema
