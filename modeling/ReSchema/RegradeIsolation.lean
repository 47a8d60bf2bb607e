/-
ReSchema/RegradeIsolation.lean

Whether a re-grade isolates its checks from each other.

Each completed check that the arguments let pass should have a row
(`Isolates`): the verdict of the current checker where its evidence is intact,
and a reason where it is not.  The loop of `regrade` catches what a ledger or a
JSON reader raises, but not what follows when the recorded JSON has another
shape than the code takes it for.  Then there is no row for any check, intact
or not.

`Escapes` says where this happens, on the recorded evidence (`Raises`), on the
verdict that it has, and on the checker when it raises.

  * `regradeOperation_iff`: the loop goes on past an operation if and only if
    nothing escapes there (`Contained`);
  * `regrade_isolates_iff`: the checks are isolated if and only if this is so
    of every operation of the ledger.
-/
import ReSchema.RegradeReplay

namespace ReSchema

open Py

variable {F : Type} [Runtime F]

/-! ### What escapes -/

/-- The check raises, with so many seeds drawn: it does so itself, or it draws from recorded seeds
that are no list. -/
inductive Faults (host : Host) (seeds : Json F) : ℕ → Proc F → Prop
  | fault {n} : Faults host seeds n .fault
  | noSeed {n next} : Json.len? seeds ≠ some n → Json.item? seeds n = none →
      Faults host seeds n (.draw next)
  | draw {n next s} : Json.len? seeds ≠ some n → Json.item? seeds n = some s →
      Faults host seeds (n + 1) (next s) → Faults host seeds n (.draw next)
  | run {n job next} : Faults host seeds n (next (host.runJob job)) →
      Faults host seeds n (.run job next)

/-- **An exception ends the re-grade** at this check, by what it is about. -/
inductive Escapes (host : Host) (ledger : Ledger) (domain : Domain F) (op : Operation)
    (check : PyStr) : Prop
  | evidence {op'} : ledger.lookup op = .ok op' → Raises F host ledger op' →
      Escapes host ledger domain op check
  /-- `ev["verdict"]["status"]`. -/
  | noStatus {op'} {ev : Evidence F} : ledger.lookup op = .ok op' → Exposes ledger op' ev →
      ev.verdict.get? (py "status") = none → Escapes host ledger domain op check
  /-- `checker.check(ctx)`. -/
  | checker {op'} {ev : Evidence F} {status : Json F} {checker : Checker F} :
      ledger.lookup op = .ok op' → Exposes ledger op' ev →
      ev.verdict.get? (py "status") = some status → status ≠ .str (py "infrastructure_failure") →
      domain.checkers.lookup check = some checker →
      (∀ image ∈ ev.images, image.str? = some domain.workerImage) →
      Faults host ev.seeds 0 (checker.check ev.candidate ev.inputs ev.priv) →
      Escapes host ledger domain op check

/-- Nothing escapes at this operation.  A completed check of the run that is asked for has a number
that `int` takes, and where the number is asked for, too, the evidence and the checker raise nothing
that is not caught. -/
def Contained (host : Host) (ledger : Ledger) (domain : Domain F) (flt : RowFilter)
    (op : Operation) : Prop :=
  ∀ run n name, op.kind = py "check" → op.artifacts.isSome →
    matchCheck F op.operationId = some (run, n, name) → (∀ r, flt.run = some r → r = run) →
    ∃ number, intDecimal F n = some number ∧
      ((∀ k, flt.submission = some k → k = number) → ¬ Escapes host ledger domain op name)

/-! ### Rows -/

/-- Whether the operation has a row. -/
def selects (F : Type) [Runtime F] (flt : RowFilter) (op : Operation) : Bool :=
  match matchCheck F op.operationId with
  | none => false
  | some (run, n, _) =>
      op.kind = py "check" && op.artifacts.isSome && flt.run.all (· = run) &&
        (intDecimal F n).any fun number => flt.submission.all (· = number)

/-- The row of an operation: it carries exactly one of the three keys.  Where the check has a verdict,
with intact evidence and on the current image, it has the verdict of the current checker on exactly
the recorded files with the recorded draws, holds if the checker is the one that recorded the verdict,
and is unreplayable if the checker draws more than was recorded. -/
structure Row.Isolated (host : Host) (ledger : Ledger) (domain : Domain F) (flt : RowFilter)
    (op : Operation) (row : Row F) : Prop where
  selected : Selected F flt op row.run row.submission row.check
  settled : row.Settled
  judged : ∀ (R : Recording) (l : Layout F), Intact ledger op R l → Judged domain R →
    ∀ checker, domain.checkers.lookup row.check = some checker →
    row.recorded = some (.str R.status) ∧
    (RecordedBy host checker R → row.holds = some true) ∧
    ∀ draws : ℕ → ℤ, (∀ i (h : i < R.seeds.length), R.seeds[i] = draws i) →
      let p := (checker.check R.shown R.inputs R.priv).play host.runJob draws 0
      (∀ v, p.verdict = some v → p.drawn ≤ R.seeds.length →
        row.regraded = some v.status.text ∧
        row.holds = some (decide (v.status.text = R.status))) ∧
      (R.seeds.length < p.drawn →
        row.unreplayable.isSome ∧ row.regraded = none ∧ row.holds = none)

/-- **The re-grade isolates the judge.**  It returns, and the rows are those of the operations that are
asked for, in their order, each with what this one operation says. -/
def Isolates (host : Host) (ledger : Ledger) (domain : Domain F) (flt : RowFilter) : Prop :=
  ∃ rows, regrade host ledger domain flt = some rows ∧
    List.Forall₂ (Row.Isolated host ledger domain flt) (ledger.operations.filter (selects F flt)) rows

section Operations

variable {host : Host} {ledger : Ledger} {domain : Domain F} {flt : RowFilter}

omit [Runtime F] in
theorem replay_escapes_iff {seeds : Json F} {n : ℕ} {p : Proc F} :
    replay host seeds n p = .escapes ↔ Faults host seeds n p := by
  induction p generalizing n with
  | done v =>
      constructor
      · rintro ⟨⟩
      · rintro ⟨⟩
  | fault => exact iff_of_true rfl .fault
  | run job next ih =>
      rw [replay, ih]
      exact ⟨.run, fun h => by cases h with | run h => exact h⟩
  | draw next ih =>
      rw [replay]
      -- out of seeds is caught, no seed at an index below the length is not
      by_cases hlen : Json.len? seeds = some n
      · rw [if_pos hlen]
        refine iff_of_false (by rintro ⟨⟩) fun h => ?_
        cases h with
        | noSeed hne _ => exact hne hlen
        | draw hne _ _ => exact hne hlen
      · rw [if_neg hlen]
        rcases hitem : Json.item? seeds n with - | s
        · exact iff_of_true rfl (.noSeed hlen hitem)
        · dsimp only
          rw [ih]
          refine ⟨.draw hlen hitem, fun h => ?_⟩
          cases h with
          | noSeed _ hnone =>
              rw [hitem] at hnone
              cases hnone
          | draw _ hsome h =>
              rw [hitem] at hsome
              exact Option.some.inj hsome ▸ h

omit [Runtime F] in
theorem pyEq_str_right [Runtime F] {v : Json F} {s : PyStr} : pyEq v (.str s) = true ↔ v = .str s := by
  cases v with
  | str t => rw [pyEq_str, eq_comm]
  | _ => simp [pyEq]

/-- From the evidence on, an exception comes from the verdict or from the checker. -/
theorem regradeEvidence_none_iff {op : Operation} {row : Row F} {ev : Evidence F} :
    regradeEvidence host domain op row ev = none ↔
      ev.verdict.get? (py "status") = none ∨
      ∃ status checker, ev.verdict.get? (py "status") = some status ∧
        status ≠ .str (py "infrastructure_failure") ∧
        domain.checkers.lookup row.check = some checker ∧
        (∀ image ∈ ev.images, image.str? = some domain.workerImage) ∧
        Faults host ev.seeds 0 (checker.check ev.candidate ev.inputs ev.priv) := by
  rw [regradeEvidence]
  rcases hstatus : ev.verdict.get? (py "status") with - | status
  · exact iff_of_true rfl (.inl rfl)
  rw [or_iff_right (Option.some_ne_none status)]
  simp only [Option.bind_eq_bind, Option.bind_some]
  constructor
  · intro h
    rcases hchecker : domain.checkers.lookup row.check with - | checker
    · rw [hchecker] at h
      split_ifs at h
    simp only [hchecker] at h
    split_ifs at h with hinfra himages
    rcases hreplay : replay host ev.seeds 0 (checker.check ev.candidate ev.inputs ev.priv)
      with v | text | -
    · rw [hreplay] at h
      cases h
    · rw [hreplay] at h
      cases h
    · -- the status, the checker and the image are behind it, so it is the replay
      refine ⟨status, checker, rfl, mt pyEq_str_right.mpr hinfra, rfl, fun image hmem => ?_,
        replay_escapes_iff.mp hreplay⟩
      rw [not_and, not_not] at himages
      exact himages (List.ne_nil_of_mem hmem) image hmem
  · rintro ⟨status', checker, hsame, hinfra, hchecker, himages, hfaults⟩
    obtain rfl := Option.some.inj hsame
    rw [if_neg (mt pyEq_str_right.mp hinfra), hchecker]
    dsimp only
    rw [if_neg fun hne => hne.2 himages, replay_escapes_iff.mpr hfaults]

/-- What escapes at a verified operation, by what `_evidence` makes of it. -/
theorem escapes_iff {op op' : Operation} {row : Row F} (hlookup : ledger.lookup op = .ok op') :
    Escapes host ledger domain op row.check ↔ evidence host ledger F op' = .error .escapes ∨
      ∃ ev, evidence host ledger F op' = .ok ev ∧ regradeEvidence host domain op row ev = none := by
  have hsame : ∀ {op''}, ledger.lookup op = .ok op'' → op'' = op' := fun h =>
    Except.ok.inj (h.symm.trans hlookup)
  constructor
  · intro h
    cases h with
    | evidence hop hraises =>
        obtain rfl := hsame hop
        exact .inl (evidence_escapes_iff.mpr hraises)
    | noStatus hop hexposes hstatus =>
        obtain rfl := hsame hop
        exact .inr ⟨_, evidence_ok_iff.mpr hexposes, regradeEvidence_none_iff.mpr (.inl hstatus)⟩
    | checker hop hexposes hstatus hinfra hchecker himages hfaults =>
        obtain rfl := hsame hop
        exact .inr ⟨_, evidence_ok_iff.mpr hexposes, regradeEvidence_none_iff.mpr
          (.inr ⟨_, _, hstatus, hinfra, hchecker, himages, hfaults⟩)⟩
  · rintro (h | ⟨ev, hev, h⟩)
    · exact .evidence hlookup (evidence_escapes_iff.mp h)
    have hexposes := evidence_ok_iff.mp hev
    rcases regradeEvidence_none_iff.mp h with
      hstatus | ⟨status, checker, hstatus, hinfra, hchecker, himages, hfaults⟩
    · exact .noStatus hlookup hexposes hstatus
    · exact .checker hlookup hexposes hstatus hinfra hchecker himages hfaults

theorem regradeCheck_none_iff {op : Operation} {row : Row F} :
    regradeCheck host ledger domain op row = none ↔ Escapes host ledger domain op row.check := by
  rw [regradeCheck]
  rcases hlookup : ledger.lookup op with text | op'
  · -- refused by the ledger
    refine iff_of_false (Option.some_ne_none _) fun h => ?_
    cases h with
    | evidence hop _ | noStatus hop _ _ | checker hop _ _ _ _ _ _ =>
        rw [hlookup] at hop
        cases hop
  rw [escapes_iff hlookup]
  dsimp only
  rcases evidence host ledger F op' with (text | text | -) | ev
  all_goals simp

/-! ### One operation -/

omit [Runtime F] in
theorem any_ne_iff {α : Type} [DecidableEq α] {o : Option α} {a : α} :
    o.any (· ≠ a) = true ↔ ¬ ∀ b, o = some b → b = a := by
  cases o <;> simp

omit [Runtime F] in
theorem all_eq_iff {α : Type} [DecidableEq α] {o : Option α} {a : α} :
    o.all (· = a) = true ↔ ∀ b, o = some b → b = a := by
  cases o <;> simp

variable (host ledger domain flt) in
/-- **One turn of the loop**: the operation is not asked for, its number is too long for `int`, or its
check is judged. -/
theorem regradeOperation_cases (op : Operation) :
    (regradeOperation host ledger domain flt op = some none ∧ selects F flt op = false ∧
      Contained host ledger domain flt op) ∨
    (regradeOperation host ledger domain flt op = none ∧ ¬ Contained host ledger domain flt op) ∨
    (selects F flt op = true ∧ ∃ run number name, Selected F flt op run number name ∧
      regradeOperation host ledger domain flt op =
        (regradeCheck host ledger domain op (.start run number name)).map some ∧
      (Contained host ledger domain flt op ↔ ¬ Escapes host ledger domain op name)) := by
  rcases hmatch : matchCheck F op.operationId with - | ⟨run, n, name⟩
  · refine .inl ⟨by rw [regradeOperation, hmatch], by rw [selects, hmatch], ?_⟩
    intro _ _ _ _ _ h
    rw [hmatch] at h
    cases h
  have hinj : ∀ {run' n' name'}, matchCheck F op.operationId = some (run', n', name') →
      run' = run ∧ n' = n ∧ name' = name := by
    intro run' n' name' h
    rw [hmatch] at h
    simpa [eq_comm] using h
  by_cases hkind : op.kind = py "check"
  swap
  · refine .inl ⟨?_, by simp [selects, hmatch, hkind], fun _ _ _ h => absurd h hkind⟩
    rw [regradeOperation, hmatch]
    exact if_pos (.inl hkind)
  by_cases hcompleted : op.artifacts.isSome = true
  swap
  · refine .inl ⟨?_, by simp [selects, hmatch, hcompleted], fun _ _ _ _ h => absurd h hcompleted⟩
    rw [regradeOperation, hmatch]
    exact if_pos (.inr (by simpa using hcompleted))
  have hcheck : ¬ (op.kind ≠ py "check" ∨ op.artifacts.isNone = true) := by
    rw [not_or, not_not, Option.isNone_iff_eq_none, ← ne_eq, Option.ne_none_iff_isSome]
    exact ⟨hkind, hcompleted⟩
  by_cases hrun : ∀ r, flt.run = some r → r = run
  swap
  · -- another run is asked for
    refine .inl ⟨?_, ?_, ?_⟩
    · rw [regradeOperation, hmatch]
      dsimp only
      rw [if_neg hcheck, if_pos (any_ne_iff.mpr hrun)]
    · have hall := Bool.eq_false_iff.mpr (mt all_eq_iff.mp hrun)
      simp [selects, hmatch, hall]
    · intro run' n' name' _ _ h hrun'
      obtain ⟨rfl, -, -⟩ := hinj h
      exact absurd hrun' hrun
  rcases hnumber : intDecimal F n with - | number
  · -- the number is read outside of the `try`
    refine .inr (.inl ⟨?_, fun h => ?_⟩)
    · rw [regradeOperation, hmatch]
      dsimp only
      rw [if_neg hcheck, if_neg (mt any_ne_iff.mp (not_not.mpr hrun)), hnumber]
      rfl
    · obtain ⟨number, hsome, -⟩ := h run n name hkind hcompleted hmatch hrun
      rw [hnumber] at hsome
      cases hsome
  by_cases hsub : ∀ k, flt.submission = some k → k = number
  swap
  · -- another submission is asked for
    refine .inl ⟨?_, ?_, ?_⟩
    · rw [regradeOperation, hmatch]
      dsimp only
      rw [if_neg hcheck, if_neg (mt any_ne_iff.mp (not_not.mpr hrun)), hnumber]
      exact if_pos (any_ne_iff.mpr hsub)
    · have hall := Bool.eq_false_iff.mpr (mt all_eq_iff.mp hsub)
      simp [selects, hmatch, hnumber, hall]
    · intro run' n' name' _ _ h _
      obtain ⟨rfl, rfl, rfl⟩ := hinj h
      exact ⟨number, hnumber, fun h => absurd h hsub⟩
  -- the check is judged
  have hsel : Selected F flt op run number name :=
    ⟨hkind, ⟨n, hmatch, hnumber⟩, hcompleted, hrun, hsub⟩
  refine .inr (.inr ⟨?_, run, number, name, hsel, regradeOperation_selected hsel, ?_⟩)
  · simp [selects, hmatch, hkind, hcompleted, hnumber, all_eq_iff.mpr hrun, all_eq_iff.mpr hsub]
  · constructor
    · intro h
      obtain ⟨number', hsome, hnot⟩ := h run n name hkind hcompleted hmatch hrun
      obtain rfl := Option.some.inj (hnumber.symm.trans hsome)
      exact hnot hsub
    · intro h run' n' name' _ _ hmatch' _
      obtain ⟨rfl, rfl, rfl⟩ := hinj hmatch'
      exact ⟨number, hnumber, fun _ => h⟩

/-- It goes on if and only if nothing escapes. -/
theorem regradeOperation_iff {op : Operation} :
    (∃ found, regradeOperation host ledger domain flt op = some found) ↔
      Contained host ledger domain flt op := by
  rcases regradeOperation_cases host ledger domain flt op with
    ⟨h, -, hcontained⟩ | ⟨h, hnot⟩ | ⟨-, run, number, name, -, h, hcontained⟩
  · exact iff_of_true ⟨none, h⟩ hcontained
  · rw [h]
    exact iff_of_false (by simp) hnot
  · have hnone : regradeCheck host ledger domain op (.start run number name) = none ↔
        Escapes host ledger domain op name := regradeCheck_none_iff
    rw [h, hcontained, ← hnone]
    rcases regradeCheck host ledger domain op (.start run number name) with - | row
    all_goals simp

/-- What it goes on with is a row just where the operation is asked for. -/
theorem isSome_regradeOperation {op : Operation} {found : Option (Row F)}
    (h : regradeOperation host ledger domain flt op = some found) :
    found.isSome = selects F flt op := by
  rcases regradeOperation_cases host ledger domain flt op with
    ⟨hskip, hselects, -⟩ | ⟨hnone, -⟩ | ⟨hselects, run, number, name, -, hrow, -⟩
  · rw [hskip] at h
    rw [← Option.some.inj h, hselects]
    rfl
  · rw [hnone] at h
    cases h
  · rw [hrow] at h
    obtain ⟨row, -, rfl⟩ := Option.map_eq_some_iff.mp h
    exact hselects.symm

/-! ### A replayed check -/

section Replayed

variable {op : Operation} {R : Recording} {l : Layout F} {checker : Checker F} {row row' : Row F}

/-- The verdict in the record is carried over, whatever the replay makes of it. -/
theorem recorded_of_check (hintact : Intact ledger op R l) (hjudged : Judged domain R)
    (hchecker : domain.checkers.lookup row.check = some checker)
    (hcheck : regradeCheck host ledger domain op row = some row') :
    row'.recorded = some (.str R.status) := by
  rw [regradeCheck_intact hintact hjudged hchecker] at hcheck
  rcases hend : replay host (.arr (R.seeds.map .int)) 0 (checker.check R.shown R.inputs R.priv)
    with v | text | -
  · rw [hend] at hcheck
    rw [← Option.some.inj hcheck]
  · rw [hend] at hcheck
    rw [← Option.some.inj hcheck]
  · rw [hend] at hcheck
    cases hcheck

variable {draws : ℕ → ℤ}

/-- With seeds enough, the verdict is that of the run on the recorded draws. -/
theorem regraded_of_play (hintact : Intact ledger op R l) (hjudged : Judged domain R)
    (hchecker : domain.checkers.lookup row.check = some checker)
    (hcheck : regradeCheck host ledger domain op row = some row')
    (hdraws : ∀ i (h : i < R.seeds.length), R.seeds[i] = draws i) {v : CheckVerdict F}
    (hv : ((checker.check R.shown R.inputs R.priv).play host.runJob draws 0).verdict = some v)
    (hdrawn : ((checker.check R.shown R.inputs R.priv).play host.runJob draws 0).drawn ≤
      R.seeds.length) :
    row'.regraded = some v.status.text ∧ row'.holds = some (decide (v.status.text = R.status)) := by
  rw [regradeCheck_intact hintact hjudged hchecker, replay_play host draws hdraws _ (Nat.zero_le _),
    if_pos hdrawn, Played.ended, hv] at hcheck
  rw [← Option.some.inj hcheck]
  exact ⟨rfl, rfl⟩

/-- Without, there is none. -/
theorem unreplayable_of_play (hintact : Intact ledger op R l) (hjudged : Judged domain R)
    (hchecker : domain.checkers.lookup row.check = some checker)
    (hcheck : regradeCheck host ledger domain op row = some row')
    (hdraws : ∀ i (h : i < R.seeds.length), R.seeds[i] = draws i)
    (hmore : R.seeds.length <
      ((checker.check R.shown R.inputs R.priv).play host.runJob draws 0).drawn) :
    row'.unreplayable.isSome ∧ row'.regraded = row.regraded ∧ row'.holds = row.holds := by
  rw [regradeCheck_intact hintact hjudged hchecker, replay_play host draws hdraws _ (Nat.zero_le _),
    if_neg (Nat.not_le.mpr hmore)] at hcheck
  rw [← Option.some.inj hcheck]
  exact ⟨rfl, rfl, rfl⟩

end Replayed

theorem isolated_of_row {op : Operation} {row : Row F}
    (h : regradeOperation host ledger domain flt op = some (some row)) :
    row.Isolated host ledger domain flt op := by
  have hsettled := regradeOperation_settled h
  rcases regradeOperation_cases host ledger domain flt op with
    ⟨hskip, -⟩ | ⟨hnone, -⟩ | ⟨-, run, number, name, hsel, hrow, -⟩
  · rw [hskip] at h
    cases h
  · rw [hnone] at h
    cases h
  rw [hrow] at h
  obtain ⟨row', hcheck, hsame⟩ := Option.map_eq_some_iff.mp h
  obtain rfl := Option.some.inj hsame
  obtain ⟨hrun, hsubmission, hname⟩ := regradeCheck_of hcheck
  refine ⟨?_, hsettled, fun R l hintact hjudged checker hchecker => ?_⟩
  · rw [hrun, hsubmission, hname]
    exact hsel
  rw [hname] at hchecker
  refine ⟨recorded_of_check hintact hjudged hchecker hcheck, ?_, fun draws hdraws => ⟨?_, ?_⟩⟩
  · -- the checker that recorded the verdict is played on the draws of that time
    rintro ⟨draws, v, hplay, hdraws, hstatus⟩
    obtain ⟨-, hholds⟩ := regraded_of_play hintact hjudged hchecker hcheck hdraws
      (show _ = some v by rw [hplay]) (by rw [hplay])
    rw [hholds, hstatus, decide_eq_true rfl]
  · exact fun v hv hdrawn => regraded_of_play hintact hjudged hchecker hcheck hdraws hv hdrawn
  · exact fun hmore => unreplayable_of_play hintact hjudged hchecker hcheck hdraws hmore

/-! ### The loop -/

/-- The rows of operations that the loop goes past. -/
theorem isolated_rows {ops : List Operation} {found : List (Option (Row F))}
    (h : List.Forall₂ (fun op f => regradeOperation host ledger domain flt op = some f) ops found) :
    List.Forall₂ (Row.Isolated host ledger domain flt) (ops.filter (selects F flt))
      (found.filterMap id) := by
  induction h with
  | nil => exact .nil
  | @cons op f ops found hop _ ih =>
      have hselects := isSome_regradeOperation hop
      rcases f with - | row
      · rw [List.filter_cons_of_neg (by simpa using hselects.symm), List.filterMap_cons_none rfl]
        exact ih
      · rw [List.filter_cons_of_pos hselects.symm, List.filterMap_cons_some (show id (some row) = some row from rfl)]
        exact .cons (isolated_of_row hop) ih

/-- It ends without an exception if and only if nothing escapes. -/
theorem regrade_iff : (∃ rows, regrade host ledger domain flt = some rows) ↔
    ∀ op ∈ ledger.operations, Contained host ledger domain flt op := by
  have hloop : (∃ found, ledger.operations.mapM (regradeOperation host ledger domain flt) =
      some found) ↔ ∀ op ∈ ledger.operations, Contained host ledger domain flt op :=
    exists_mapM_some.trans (forall₂_congr fun _ _ => regradeOperation_iff)
  rw [← hloop]
  constructor
  · rintro ⟨rows, hrows⟩
    obtain ⟨found, hfound, -⟩ := Option.map_eq_some_iff.mp hrows
    exact ⟨found, hfound⟩
  · rintro ⟨found, hfound⟩
    exact ⟨found.filterMap id, congrArg (Option.map _) hfound⟩

/-- **Isolation, exactly.**  A re-grade has a row for every check that is asked for, each judged by
itself, if and only if nothing escapes at any operation of the ledger. -/
theorem regrade_isolates_iff (host : Host) (ledger : Ledger) (domain : Domain F) (flt : RowFilter) :
    Isolates host ledger domain flt ↔
      ∀ op ∈ ledger.operations, Contained host ledger domain flt op := by
  rw [← regrade_iff]
  constructor
  · rintro ⟨rows, hrows, -⟩
    exact ⟨rows, hrows⟩
  · rintro ⟨rows, hrows⟩
    obtain ⟨found, hfound, rfl⟩ := Option.map_eq_some_iff.mp hrows
    exact ⟨_, hrows, isolated_rows (mapM_some.mp hfound)⟩

end Operations

/-! ### A project with two checks -/

/-- A checker that draws one seed and passes if it is even. -/
def parityChecker : Checker ZeroFloat where
  version := py "parity"
  check _ _ _ := .draw fun seed =>
    .done ⟨if seed.int?.any (· % 2 = 0) then .passed else .rejected, .obj [], []⟩

def parityDomain : Domain ZeroFloat := ⟨[(py "program-replay", parityChecker)], py "image"⟩

def idleHost : Host where
  runJob _ := ⟨0, false, false, [], [], nil_stdout_le, nil_stderr_lt, zero_returncode_lt⟩
  tooDeep _ := false

/-- The values in the artifacts of a project. -/
def parityValues : Dict (Json ZeroFloat) :=
  [(py "a", .obj [(py "model.c", .str (py "c"))]), (py "v", .obj [(py "status", .str (py "passed"))]),
    (py "s", .arr [.int 0]), (py "j", .arr [])]

/-- Its artifacts. -/
def parityArtifacts : Dict Bytes :=
  [(py "b", [0x7f]), (py "c", encode (py "int main;"))] ++
    parityValues.map fun p => (p.1, encode (dumps plain p.2))

def parityRead (ref : Ref) : Except PyStr Bytes :=
  match parityArtifacts.lookup ref.digest with
  | some b => .ok b
  | none => .error (py "missing")

/-- The observations of its two submissions. -/
def parityHistory : List Observation :=
  [⟨1, [(py "submission/1/candidate/model.c", ⟨py "c"⟩)]⟩,
    ⟨2, [(py "submission/2/candidate/model.c", ⟨py "c"⟩)]⟩]

def parityLedger (operations : List Operation) : Ledger where
  operations := operations
  history := parityHistory
  lookup op := .ok op
  read := parityRead

def parityInputs : Dict Ref :=
  [(py "observation/1/submission.json", ⟨py "a"⟩), (py "observation/0/private/prog", ⟨py "b"⟩)]

def parityCompletion : Dict Ref :=
  [(py "verdict.json", ⟨py "v"⟩), (py "seeds.json", ⟨py "s"⟩), (py "jobs.json", ⟨py "j"⟩)]

/-- The check of the first submission. -/
def parityCheck (run : PyStr) : Operation where
  kind := py "check"
  operationId := py "run/" ++ run ++ py "/submission/1/check/program-replay"
  producerVersion := py "parity"
  inputs := parityInputs
  artifacts := some parityCompletion

/-- The check of the second one, which was recorded as an empty list. -/
def emptyCheck : Operation where
  kind := py "check"
  operationId := py "run/r/submission/2/check/program-replay"
  producerVersion := py "parity"
  inputs := [(py "observation/2/submission.json", ⟨py "j"⟩)]
  artifacts := some parityCompletion

def parityRecording : Recording where
  candidate := [(py "model.c", encode (py "int main;"))]
  inputs := []
  priv := [(py "prog", [0x7f])]
  status := py "passed"
  seeds := [0]
  images := []

def parityLayout : Layout ZeroFloat where
  items := [⟨1, none, .submission, ⟨py "a"⟩⟩, ⟨0, none, .priv (py "prog"), ⟨py "b"⟩⟩]
  sequence := 1
  target := ⟨py "a"⟩
  observation := ⟨1, [(py "submission/1/candidate/model.c", ⟨py "c"⟩)]⟩
  captured := [⟨py "submission/1", py "model.c", ⟨py "c"⟩, encode (py "int main;")⟩]
  claimed := [(py "model.c", .str (py "c"))]
  artifacts := parityCompletion
  verdict := .obj [(py "status", .str (py "passed"))]

section Parity

variable {ops : List Operation}

/-- Every value can be read back. -/
theorem parity_loads {ref : Ref} {v : Json ZeroFloat} (hmem : v ∈ parityValues.map Prod.snd)
    (hread : parityRead ref = .ok (encode (dumps plain v))) : (parityLedger ops).HoldsJson ref v := by
  refine ⟨_, hread, loads_dumps plain_blank ?_ ?_⟩
  · rcases List.mem_map.mp hmem with ⟨p, hp, rfl⟩
    simp only [parityValues, List.mem_cons, List.not_mem_nil, or_false] at hp
    rcases hp with rfl | rfl | rfl | rfl
    all_goals simp [Json.Fits, FitsList, FitsDict, Runtime.maxDepth]
  · rcases List.mem_map.mp hmem with ⟨p, hp, rfl⟩
    simp only [parityValues, List.mem_cons, List.not_mem_nil, or_false] at hp
    rcases hp with rfl | rfl | rfl | rfl
    all_goals simp [Json.Clean, CleanList, CleanDict, Dict.keys]
    all_goals decide

theorem parity_intact {run : PyStr} :
    Intact (parityLedger ops) (parityCheck run) parityRecording parityLayout where
  verified := rfl
  layout := show parityInputs = parityLayout.items.map fun e => (e.name, e.ref) by decide +kernel
  named := List.forall_mem_cons.mpr ⟨trivial, List.forall_mem_singleton.mpr
    (show py "prog" ≠ [] ∧ ch '\n' ∉ py "prog" by decide)⟩
  submission := ⟨_, List.mem_cons_self, rfl⟩
  target := by simp [parityLayout]
  sequence_le := by decide
  inputs := .nil
  inputs_nodup := by decide
  priv := .cons ⟨rfl, rfl⟩ .nil
  priv_nodup := by decide
  observed := ⟨List.mem_cons_self, rfl⟩
  observed_once := by simp [parityLedger, parityHistory, parityLayout]
  captured := rfl
  front := by decide
  content := show ∀ c ∈ parityLayout.captured, parityRead c.ref = .ok c.content by decide
  candidate := rfl
  candidate_nodup := by decide
  claims := parity_loads (by simp [parityValues, parityLayout]) (by decide +kernel)
  claimed := by simp [parityLayout]
  claimed_length := rfl
  artifacts := rfl
  verdict := ⟨⟨py "v"⟩, rfl, parity_loads (by simp [parityValues, parityLayout]) (by decide +kernel)⟩
  status := rfl
  seeds := ⟨⟨py "s"⟩, rfl, parity_loads (by simp [parityValues, parityRecording])
    (by decide +kernel)⟩
  jobs := ⟨⟨py "j"⟩, [], rfl, parity_loads (by simp [parityValues]) (by decide +kernel), .nil⟩

theorem parity_recorded : RecordedBy idleHost parityChecker parityRecording :=
  ⟨fun _ => 0, ⟨.passed, .obj [], []⟩, rfl, by simp [parityRecording], rfl⟩

/-- The row of the first check. -/
def parityRow (run : PyStr) : Row ZeroFloat where
  run := run
  submission := 1
  check := py "program-replay"
  recorded := some (.str (py "passed"))
  checkerVersion := some (py "parity", py "parity")
  refused := none
  unreplayable := none
  regraded := some (py "passed")
  holds := some true
  feedback := none

theorem parity_row {flt : RowFilter} {run : PyStr}
    (hsel : Selected ZeroFloat flt (parityCheck run) run 1 (py "program-replay")) :
    regradeOperation idleHost (parityLedger ops) parityDomain flt (parityCheck run) =
      some (some (parityRow run)) := by
  have hchecker : parityDomain.checkers.lookup
      (Row.start (F := ZeroFloat) run 1 (py "program-replay")).check = some parityChecker := rfl
  exact (regradeOperation_selected hsel).trans (congrArg (Option.map some)
    (regradeCheck_intact parity_intact ⟨.inl rfl, by simp [parityRecording]⟩ hchecker))

theorem parity_selected {run : PyStr} (h : matchCheck ZeroFloat (parityCheck run).operationId =
    some (run, py "1", py "program-replay")) :
    Selected ZeroFloat ⟨none, none⟩ (parityCheck run) run 1 (py "program-replay") :=
  ⟨rfl, ⟨py "1", h, by decide +kernel⟩, rfl, by simp, by simp⟩

/-- The second submission is no dictionary. -/
theorem empty_escapes : Escapes idleHost (parityLedger ops) parityDomain emptyCheck
    (py "program-replay") := by
  have hsub : Submitted ZeroFloat (parityLedger ops) emptyCheck
      ⟨[], [], 2, ⟨py "j"⟩, ⟨2, [(py "submission/2/candidate/model.c", ⟨py "c"⟩)]⟩⟩ := by
    refine ⟨by decide +kernel, ?_, ?_, by decide +kernel, rfl⟩
    · rw [show emptyCheck.inputs.filterMap (inputOf ZeroFloat) = [] by decide +kernel]
      exact .nil
    · rw [show emptyCheck.inputs.filterMap (privOf ZeroFloat) = [] by decide +kernel]
      exact .nil
  have hclaims : (parityLedger ops).HoldsJson ⟨py "j"⟩ (.arr [] : Json ZeroFloat) :=
    parity_loads (by simp [parityValues]) (by decide +kernel)
  exact .evidence rfl (.noGet hsub hclaims rfl (by simp))

end Parity

theorem regrade_isolates_parity : ∃ row,
    regrade idleHost (parityLedger [parityCheck (py "r")]) parityDomain ⟨none, none⟩ = some [row] ∧
      row.holds = some true := by
  have hcontained : ∀ op ∈ (parityLedger [parityCheck (py "r")]).operations,
      Contained idleHost (parityLedger [parityCheck (py "r")]) parityDomain ⟨none, none⟩ op :=
    List.forall_mem_singleton.mpr
      (regradeOperation_iff.mp ⟨_, parity_row (parity_selected (by decide +kernel))⟩)
  obtain ⟨rows, hrows, hall⟩ := (regrade_isolates_iff idleHost (parityLedger [parityCheck (py "r")])
    parityDomain ⟨none, none⟩).mpr hcontained
  -- the rows are one
  have hrow : regradeOperation idleHost (parityLedger [parityCheck (py "r")]) parityDomain
      ⟨none, none⟩ (parityCheck (py "r")) = some (some (parityRow (py "r"))) :=
    parity_row (parity_selected (by decide +kernel))
  rw [show (parityLedger [parityCheck (py "r")]).operations = [parityCheck (py "r")] from rfl,
    List.filter_cons_of_pos (isSome_regradeOperation hrow).symm] at hall
  obtain ⟨row, rest, hisolated, hrest, rfl⟩ := List.forall₂_cons_left_iff.mp hall
  cases hrest
  -- of the check that was recorded
  obtain ⟨n, hmatch, -⟩ := hisolated.selected.named
  have hmatch' : matchCheck ZeroFloat (parityCheck (py "r")).operationId =
      some (py "r", py "1", py "program-replay") := by decide +kernel
  obtain ⟨-, -, hname⟩ : row.run = py "r" ∧ n = py "1" ∧ row.check = py "program-replay" := by
    simpa using hmatch.symm.trans hmatch'
  have hchecker : parityDomain.checkers.lookup row.check = some parityChecker := by
    rw [hname]
    rfl
  obtain ⟨-, hholds, -⟩ := hisolated.judged parityRecording parityLayout parity_intact
    ⟨.inl rfl, by simp [parityRecording]⟩ parityChecker hchecker
  exact ⟨row, hrows, hholds parity_recorded⟩

/-- One submission that is no dictionary, and the intact check of the other one has no row. -/
theorem regrade_not_isolates :
    Intact (parityLedger [parityCheck (py "r"), emptyCheck]) (parityCheck (py "r")) parityRecording
      parityLayout ∧
    RecordedBy idleHost parityChecker parityRecording ∧
    regrade idleHost (parityLedger [parityCheck (py "r"), emptyCheck]) parityDomain ⟨none, none⟩ =
      none ∧
    ¬ Isolates idleHost (parityLedger [parityCheck (py "r"), emptyCheck]) parityDomain
      ⟨none, none⟩ := by
  have hmatch : matchCheck ZeroFloat emptyCheck.operationId =
      some (py "r", py "2", py "program-replay") := by decide +kernel
  have hnone : regrade idleHost (parityLedger [parityCheck (py "r"), emptyCheck]) parityDomain
      ⟨none, none⟩ = none := by
    rcases h : regrade idleHost (parityLedger [parityCheck (py "r"), emptyCheck]) parityDomain
      ⟨none, none⟩ with - | rows
    · rfl
    have hcontained := regrade_iff.mp ⟨rows, h⟩ emptyCheck (by simp [parityLedger])
    obtain ⟨number, -, hnot⟩ := hcontained _ _ _ rfl rfl hmatch (by simp)
    exact absurd empty_escapes (hnot (by simp))
  refine ⟨parity_intact, parity_recorded, hnone, ?_⟩
  rintro ⟨rows, hrows, -⟩
  rw [hnone] at hrows
  cases hrows

end ReSchema
