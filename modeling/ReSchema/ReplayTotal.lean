/-
ReSchema/ReplayTotal.lean

When the program checker returns a verdict whatever the job printed.

A rejection that carries only texts always fits the limit of the feedback
(`replayReject_texts`).  A divergence need not: `_cap` leaves numbers alone,
and the event that `compare` echoes for a crashed model may have any further
entry.  One line with sixteen integers of 4300 digits is enough
(`compare_forged`), so the checker is total only on candidates for which there
is nothing to compare (`replay_total_iff`).
-/
import ReSchema.ReplaySound
import ReSchema.Py.Sizes

namespace ReSchema

open Py

variable {F : Type} [Runtime F]

/-! ### Small values under `_cap` -/

omit [Runtime F] in
theorem capList_eq_map (n : ℕ) (xs : List (Json F)) : capList n xs = xs.map (cap n) := by
  induction xs with
  | nil => rfl
  | cons x xs ih => rw [capList, ih, List.map_cons]

omit [Runtime F] in
theorem capDict_eq_map (n : ℕ) (d : Dict (Json F)) :
    capDict n d = d.map fun e => (e.1.take n, cap n e.2) := by
  induction d with
  | nil => rfl
  | cons e d ih => rw [capDict, ih, List.map_cons]

omit [Runtime F] in
theorem cap_arr (n : ℕ) {xs : List (Json F)} (h : xs.length ≤ 16) :
    cap n (.arr xs) = .arr (xs.map (cap n)) := by
  have hlen : (capList n xs).length ≤ 16 := by rwa [capList_eq_map, List.length_map]
  rw [cap, List.take_of_length_le hlen, if_neg (by omega), List.append_nil, capList_eq_map]

/-- A dictionary that `_cap` keeps whole: few entries, under distinct short keys. -/
structure Small (n : ℕ) (d : Dict (Json F)) : Prop where
  length_le : d.length ≤ 16
  key_le : ∀ e ∈ d, e.1.length ≤ n
  nodup : d.keys.Nodup

omit [Runtime F] in
theorem cap_obj {n : ℕ} {d : Dict (Json F)} (h : Small n d) :
    cap n (.obj d) = .obj (d.map fun e => (e.1, cap n e.2)) := by
  have hkeys : capDict n d = d.map fun e => (e.1, cap n e.2) := by
    rw [capDict_eq_map]
    exact List.map_congr_left fun e he => by rw [List.take_of_length_le (h.key_le e he)]
  have hlen : (capDict n d).length ≤ 16 := by
    rw [hkeys, List.length_map]
    exact h.length_le
  have hnodup : (Dict.keys (d.map fun e => (e.1, cap n e.2))).Nodup := by
    simpa [Dict.keys, Function.comp_def] using h.nodup
  have hle := h.length_le
  rw [cap, List.take_of_length_le hlen, hkeys, Dict.update_nil hnodup, if_neg (by omega)]

theorem length_capText_le {n k : ℕ} (hk : 0 < k) {s : PyStr} (h : s.length < 10 ^ k) :
    (capText n s).length ≤ n + k + 12 := by
  have hdigits : (natText (s.length - n)).length ≤ k :=
    length_natText_le hk (lt_of_le_of_lt (Nat.sub_le _ _) h)
  have hopen : (py "...[+").length = 5 := rfl
  have hclose : (py " chars]").length = 7 := rfl
  unfold capText
  split_ifs with hs
  · omega
  · simp only [List.length_append, List.length_take]
    omega

/-! ### Rejections that carry texts -/

theorem capped_isSome {v : Json F} (h : Fitting (cap 4096 v)) : (capped v).isSome = true := by
  rw [capped, capLevels, List.findSome?_cons, if_pos h]
  rfl

omit [Runtime F] in
theorem Small.mono {m n : ℕ} {d : Dict (Json F)} (h : Small m d) (hmn : m ≤ n) : Small n d :=
  ⟨h.length_le, fun e he => (h.key_le e he).trans hmn, h.nodup⟩

omit [Runtime F] in
/-- The feedback of a rejection with at most one further entry. -/
theorem small_rejection (reason stage : PyStr) {kw : Dict (Json F)} (hlen : kw.length ≤ 1)
    (hkeys : ∀ e ∈ kw, e.1 = py "detail" ∨ e.1 = py "divergence") :
    Small 64 ([(py "accepted", .bool false), (py "reason", .str reason),
      (py "stage", .str stage)] ++ kw) := by
  have hshort : ∀ e ∈ kw, e.1.length ≤ 64 := fun e he => by
    rcases hkeys e he with h | h <;> rw [h] <;> decide
  refine ⟨by rw [List.length_append]; simpa using by omega, ?_, ?_⟩
  · simp only [List.cons_append, List.nil_append, List.forall_mem_cons]
    exact ⟨by decide, by decide, by decide, hshort⟩
  · rcases kw with - | ⟨⟨k, v⟩, - | ⟨e, kw⟩⟩
    · simp [Dict.keys]
    · rcases hkeys (k, v) List.mem_cons_self with h | h <;> simp_all [Dict.keys]
    · simp at hlen

theorem entryRoom_accepted :
    entryRoom indent2 1 (py "accepted", (.bool false : Json F)) = 21 := by
  simp only [entryRoom, render]
  rfl

/-- **A rejection that carries only texts fits**, whatever the length of the last of them. -/
theorem replayReject_texts {reason stage : PyStr} {kw : Dict (Json F)}
    (hreason : reason.length ≤ 64) (hstage : stage.length ≤ 64)
    (hkw : kw = [] ∨ ∃ s : PyStr, s.length < 10 ^ 100 ∧ kw = detail s) :
    (replayReject reason stage kw).isSome = true := by
  have hsmall : Small 64 ([(py "accepted", Json.bool (F := F) false), (py "reason", .str reason),
      (py "stage", .str stage)] ++ kw) := by
    rcases hkw with rfl | ⟨s, -, rfl⟩
    · exact small_rejection reason stage (by simp) (by simp)
    · exact small_rejection reason stage (by simp [detail]) (by simp [detail])
  have hcap : ∀ t : PyStr, t.length ≤ 64 → capText 4096 t = t := fun t ht =>
    if_pos (by omega)
  have hnl : (indent2.newline 0).length = 1 := rfl
  have hr := entryRoom_str_le (F := F) (k := py "reason") (m := 6) (le_refl 6) hreason
  have hs := entryRoom_str_le (F := F) (k := py "stage") (m := 5) (le_refl 5) hstage
  rw [replayReject, Option.isSome_map]
  refine capped_isSome ?_
  rw [Fitting, cap_obj (hsmall.mono (by decide)), dumpsSorted, length_render_sortKeys]
  refine (length_render_obj_le indent2 0 _).trans_lt ?_
  rcases hkw with rfl | ⟨s, hlen, rfl⟩
  · simp only [zero_add, List.append_nil, List.map_cons, List.map_nil, List.sum_cons, List.sum_nil, cap,
      hcap _ hreason, hcap _ hstage, entryRoom_accepted, hnl, feedbackLimit]
    omega
  · have hd := entryRoom_str_le (F := F) (k := py "detail") (m := 6) (le_refl 6)
      (length_capText_le (n := 4096) (by decide) hlen)
    simp only [zero_add, detail, List.cons_append, List.nil_append, List.map_cons, List.map_nil,
      List.sum_cons, List.sum_nil, cap, hcap _ hreason, hcap _ hstage, entryRoom_accepted, hnl,
      feedbackLimit]
    omega

/-! ### Nothing to compare -/

theorem compileReport_spec {stdout : Bytes} {report : Json F}
    (h : compileReport (jobLines F stdout) = some report) :
    (∃ n, report.Fits n) ∧ report.weight ≤ stdout.length := by
  rcases hl : jobLines F stdout with - | lines
  · simp [hl, compileReport] at h
  rcases lines with - | ⟨line, rest⟩
  · simp [hl, compileReport] at h
  cases line with
  | obj d =>
      rw [hl, compileReport] at h
      split_ifs at h
      obtain ⟨s, hs, hmap⟩ := Option.bind_eq_some_iff.mp hl
      -- the report is a value of the first line, and no longer than that
      have hline : ∃ l ∈ splitLines s, loadsText l = some (Json.obj (F := F) d) := by
        rcases hsplit : splitLines s with - | ⟨l, ls⟩
        · rw [hsplit] at hmap
          cases hmap
        · rw [hsplit, List.mapM_cons] at hmap
          obtain ⟨v, hv, hmap⟩ := Option.bind_eq_some_iff.mp hmap
          obtain ⟨vs, -, hmap⟩ := Option.bind_eq_some_iff.mp hmap
          cases hmap
          exact ⟨l, List.mem_cons_self, hv⟩
      obtain ⟨l, hmem, hload⟩ := hline
      have hfits : (Json.obj (F := F) d).Fits (Runtime.maxDepth F) := loadsText_fits hload
      have h1 := weight_of_loadsText hload
      have h2 := weight_le_of_lookup h
      have h3 := splitLines_length hmem
      have h4 := decodeUtf8_atMost .strict stdout s hs
      rw [Json.weight] at h1
      exact ⟨⟨_, fitsDict_iff.mp hfits.2 _ (Dict.mem_of_lookup_eq_some h)⟩, by omega⟩
  | _ => simp [hl, compileReport] at h

theorem length_faultText_lt (r : JobResult) : (faultText r).length < 10 ^ 100 := by
  have hcode : r.returncode.natAbs < 10 ^ 20 := r.returncode_lt.trans (by norm_num)
  have h1 := length_intText_le (by decide) hcode
  have h2 : (decodeReplace r.stderr).length ≤ r.stderr.length := by
    rcases hd : decodeUtf8 .replace r.stderr with - | s
    · simp [decodeReplace, hd]
    · simpa [decodeReplace, hd] using decodeUtf8_atMost .replace r.stderr s hd
  have h3 := r.stderr_lt
  have hrc : (py "rc=").length = 3 := rfl
  have hsep : (py ": ").length = 2 := rfl
  simp only [faultText, List.length_append]
  omega

/-- The verdict on a job that is not compared to anything. -/
theorem judge_isSome [LawfulRuntime F] {p : Replay} (hrec : p.recorded = [])
    (hhid : p.hidden.length < hiddenN) (factsLimit : ℕ) (r : JobResult) :
    (judge F factsLimit p r).isSome = true := by
  have fault : (replayReject (F := F) (py "replay-fault") (py "replay")
      (detail (faultText r))).isSome = true :=
    replayReject_texts (by decide) (by decide) (.inr ⟨_, length_faultText_lt r, rfl⟩)
  rw [judge]
  by_cases htimeout : r.timedOut = true
  · rw [if_pos htimeout]
    exact replayReject_texts (by decide) (by decide) (.inl rfl)
  rw [if_neg htimeout]
  by_cases htrunc : r.truncated = true
  · rw [if_pos htrunc]
    exact replayReject_texts (by decide) (by decide) (.inr ⟨_, by decide, rfl⟩)
  rw [if_neg htrunc]
  -- the early rejections have short texts; then either a compile report or the lines
  rcases hreport : (if r.returncode = 0 then compileReport (jobLines F r.stdout) else none)
    with - | report
  · rcases hlines : jobLines F r.stdout with - | lines
    · simp only [hlines] at hreport
      simpa only [hreport] using fault
    · simp only [hlines] at hreport
      simp only [hreport]
      split_ifs
      · have hstarved : (natText p.hidden.length ++ py "/8 usable hidden inputs").length
            < 10 ^ 100 := by
          have hdigits := length_natText_le (n := p.hidden.length) (k := 1) (by decide)
            (hhid.trans (by decide))
          have htext : (py "/8 usable hidden inputs").length = 23 := rfl
          rw [List.length_append]
          omega
        have hok : compare (F := F) [] (lines.take 0) = some .passed := rfl
        rw [judgeLines, hrec, List.length_nil, hok, Option.bind_eq_bind, Option.bind_some,
          if_neg (by simp [Verdict.passed]), if_pos hhid]
        exact replayReject_texts (by decide) (by decide) (.inr ⟨_, hstarved, rfl⟩)
      · exact fault
  · simp only [hreport]
    obtain ⟨⟨n, hfits⟩, hweight⟩ : (∃ n, report.Fits n) ∧ report.weight ≤ r.stdout.length := by
      split_ifs at hreport
      exact compileReport_spec hreport
    -- a report was read from the output, so its text is bounded by its length
    have hlen := length_pyStr_le hfits
    have hcap := r.stdout_le
    exact replayReject_texts (by decide) (by decide) (.inr ⟨_, by omega, rfl⟩)

/-! ### A forged divergence -/

/-- A power of ten with all the digits that `json.loads` reads. -/
def hugeInt : ℤ := (10 ^ (maxStrDigits - 1) : ℕ)

/-- An event with one more entry than the recorder writes. -/
def eventWith (i : ℤ) : Json F :=
  .obj [(py "sc", .str []), (py "phase", .str []), (py "args", .arr []),
    (py "x", .arr (List.replicate 16 (.int i)))]

/-- The event of the attack. -/
def forgedEvent : Json F := eventWith hugeInt

/-- The trace of a crash. -/
def forgedTrace (out : PyStr) (events : List (Json F)) : Json F :=
  .obj [(py "stdout", .str out), (py "stderr", .str []), (py "exit_code", .int (-1)),
    (py "files_written", .obj []), (py "events", .arr events)]

/-- A value that no level of `_cap` from 64 on makes shorter than `m`. -/
def Bulky (m : ℕ) (v : Json F) : Prop :=
  ∀ n, 64 ≤ n → ∀ lvl, m ≤ (render indent2 lvl (cap n v).sortKeys).length

theorem Bulky.obj {m : ℕ} {d : Dict (Json F)} {k : PyStr} {v : Json F} (hv : Bulky m v)
    (hd : Small 64 d) (hmem : (k, v) ∈ d) : Bulky m (.obj d) := by
  intro n hn lvl
  have hle := hv n hn (lvl + 1)
  rw [length_render_sortKeys] at hle
  rw [cap_obj (hd.mono hn), length_render_sortKeys]
  refine hle.trans (length_render_le_obj indent2 lvl (e := (k, cap n v)) ?_)
  exact List.mem_map_of_mem (f := fun e : PyStr × Json F => (e.1, cap n e.2)) hmem

theorem length_intText_hugeInt : (intText hugeInt).length = maxStrDigits := by
  rw [hugeInt, intText_natCast, length_natText_pow]
  rfl

theorem bulky_eventWith (i : ℤ) : Bulky (F := F) (16 * (intText i).length) (eventWith i) := by
  have hitems : Bulky (F := F) (16 * (intText i).length) (.arr (List.replicate 16 (.int i))) := by
    intro n hn lvl
    rw [cap_arr n (by simp), length_render_sortKeys]
    refine le_of_eq_of_le ?_ (sum_le_length_render_arr indent2 lvl _)
    simp only [List.map_replicate, cap, render, List.sum_replicate, smul_eq_mul]
  refine hitems.obj (k := py "x") ⟨by simp, ?_, ?_⟩ (by simp)
  · simp only [List.forall_mem_cons]
    exact ⟨by decide, by decide, by decide, by decide, by simp⟩
  · simp [Dict.keys]

theorem bulky_forgedEvent : Bulky (F := F) (16 * maxStrDigits) forgedEvent := by
  rw [← length_intText_hugeInt]
  exact bulky_eventWith hugeInt

theorem capped_bulky {v : Json F} (h : Bulky (16 * maxStrDigits) v) : capped v = none := by
  have hbig : ∀ n, 64 ≤ n → ¬Fitting (cap n v) := by
    intro n hn hfit
    have hle := h n hn 0
    have hmax : maxStrDigits = 4300 := rfl
    have hlimit : feedbackLimit = 65536 := rfl
    rw [Fitting, dumpsSorted] at hfit
    omega
  rw [capped, List.findSome?_eq_none_iff]
  intro n hn
  have h64 : ∀ n ∈ capLevels, 64 ≤ n := by decide
  rw [if_neg (hbig n (h64 n hn))]

theorem replayReject_bulky {v : Json F} (h : Bulky (16 * maxStrDigits) v) (reason stage : PyStr) :
    replayReject reason stage [(py "divergence", v)] = none := by
  have hsmall := @small_rejection F reason stage [(py "divergence", v)] (by simp) (by simp)
  have hall := h.obj hsmall (k := py "divergence") (by simp)
  rw [replayReject, capped_bulky hall, Option.map_none]

omit [Runtime F] in
theorem small_divergence {a b c d : Json F} :
    Small 64 [(py "argv", a), (py "expected", b), (py "actual", c), (py "actual_fault", d)] := by
  refine ⟨by simp, ?_, by simp [Dict.keys]⟩
  simp only [List.forall_mem_cons]
  exact ⟨by decide, by decide, by decide, by decide, by simp⟩

section Forged

variable (out : PyStr) (evs : List (Json F))

omit [Runtime F] in
@[simp] theorem forgedTrace_stdout :
    (forgedTrace out evs).get? (py "stdout") = some (.str out) := by
  simp [forgedTrace, Json.get?]

omit [Runtime F] in
@[simp] theorem forgedTrace_stderr :
    (forgedTrace out evs).get? (py "stderr") = some (.str []) := by
  simp [forgedTrace, Json.get?, List.lookup_cons]

omit [Runtime F] in
@[simp] theorem forgedTrace_exitCode :
    (forgedTrace out evs).get? (py "exit_code") = some (.int (-1)) := by
  simp [forgedTrace, Json.get?, List.lookup_cons]

omit [Runtime F] in
@[simp] theorem forgedTrace_files :
    (forgedTrace out evs).get? (py "files_written") = some (.obj []) := by
  simp [forgedTrace, Json.get?, List.lookup_cons]

omit [Runtime F] in
@[simp] theorem forgedTrace_events :
    (forgedTrace out evs).get? (py "events") = some (.arr evs) := by
  simp [forgedTrace, Json.get?, List.lookup_cons]

end Forged

/-- The divergence of a forged trace echoes its last event. -/
theorem ioMismatch_forged {t : Trace} (ht : Recorded F t) {out shownOut : PyStr}
    (hshown : shown out = some shownOut) :
    ∃ expected actual, ioMismatch (F := F) t (forgedTrace out [forgedEvent]) =
      some ⟨false, py "io-mismatch", .obj [(py "argv", strs t.argv), (py "expected", expected),
        (py "actual", actual), (py "actual_fault", forgedEvent)]⟩ := by
  obtain ⟨r, rfl⟩ := ht
  have hio : ∀ (a b : PyStr) (c : Json F) (x y : PyStr), shown a = some x → shown b = some y →
      ∃ v, io (.str a) (.str b) c = some v := fun a b c x y ha hb => by
    simp [io, Json.str?, ha, hb]
  obtain ⟨expected, he⟩ := hio (hex r.out) (hex r.err) (.int r.exitCode) _ _
    (by rw [shown, fromHex_hex, Option.map_some]) (by rw [shown, fromHex_hex, Option.map_some])
  obtain ⟨actual, ha⟩ := hio out [] (.int (-1)) shownOut [] hshown rfl
  have hfault : faultEntry (F := F) (forgedTrace out [forgedEvent]) (.int (-1)) =
      some [(py "actual_fault", forgedEvent)] := by
    simp [faultEntry, pyEq, Json.arr?]
  refine ⟨expected, actual, ?_⟩
  simp only [ioMismatch, forgedTrace_stdout, forgedTrace_stderr, forgedTrace_exitCode,
    Option.bind_eq_bind, Option.bind_some, ha, hfault]
  rw [show io (F := F) (.str (canonicalize F (record r)).stdout)
    (.str (canonicalize F (record r)).stderr) (.int (canonicalize F (record r)).exitCode) =
      some expected from he]
  rfl

/-- **The forged trace.**  Where it differs from the recorded one in what was printed, the
divergence does not fit. -/
theorem compare_forged {t : Trace} (ht : Recorded F t) {out shownOut : PyStr}
    (hshown : shown out = some shownOut) (hout : t.stdout ≠ out) (ts : List Trace)
    (more : List (Json F)) :
    ∃ v, compare (t :: ts) (forgedTrace out [forgedEvent] :: more) = some v ∧ v.ok = false ∧
      ∀ stage, replayReject v.reason stage [(py "divergence", v.divergence)] = none := by
  obtain ⟨expected, actual, hmis⟩ := ioMismatch_forged ht hshown
  have hne : pyEq (F := F) (.str t.stdout) (.str out) = false := by
    rw [← Bool.not_eq_true, pyEq_str]
    exact fun h => hout (Json.str.inj h).symm
  have hone : compareOne (F := F) t (forgedTrace out [forgedEvent]) =
      some (ioMismatch t (forgedTrace out [forgedEvent])) := by
    simp only [compareOne, forgedTrace_stdout, forgedTrace_stderr, forgedTrace_exitCode,
      Option.bind_eq_bind, Option.bind_some, hne, Bool.false_and, Bool.false_eq_true, if_false,
      hmis, Option.map_some]
  refine ⟨_, by rw [compare, hone, hmis], rfl, fun stage => ?_⟩
  exact replayReject_bulky (bulky_forgedEvent.obj (k := py "actual_fault") small_divergence
    (by simp)) _ stage

/-! ### The forged output -/

/-- The lines of the forged output: one trace that does not fit and `n` that have the shape. -/
def forgedLines (out : PyStr) (n : ℕ) : List (Json F) :=
  forgedTrace out [forgedEvent] :: List.replicate n (forgedTrace out [])

/-- A job that prints the forged lines. -/
def forgedResult (F : Type) [Runtime F] (out : PyStr) (n : ℕ) : JobResult :=
  .printed (encode ((forgedLines (F := F) out n).flatMap fun l => dumps plain l ++ [ch '\n']))

omit [Runtime F] in
theorem forgedLines_fits (out : PyStr) (n : ℕ) {m : ℕ} (hm : 100 ≤ m) :
    ∀ v ∈ forgedLines (F := F) out n, v.Fits m := by
  have hhuge : hugeInt.natAbs < 10 ^ maxStrDigits := by
    rw [hugeInt, Int.natAbs_natCast]
    exact Nat.pow_lt_pow_right (by decide) (by decide)
  have htrace : ∀ evs : List (Json F), FitsList (m - 2) evs → (forgedTrace out evs).Fits m := by
    intro evs hevs
    have hone : (-1 : ℤ).natAbs < 10 ^ maxStrDigits := Nat.one_lt_pow (by decide) (by decide)
    exact ⟨by omega, trivial, trivial, hone, ⟨by omega, trivial⟩, ⟨by omega, hevs⟩, trivial⟩
  have hxs : FitsList (m - 4) (List.replicate 16 (Json.int (F := F) hugeInt)) :=
    fitsList_iff.mpr fun x hx => by
      rw [List.eq_of_mem_replicate hx]
      exact hhuge
  intro v hv
  rcases List.mem_cons.mp hv with rfl | hv
  · exact htrace _ ⟨⟨by omega, trivial, trivial, ⟨by omega, trivial⟩, ⟨by omega, hxs⟩, trivial⟩,
      trivial⟩
  · rw [List.eq_of_mem_replicate hv]
    exact htrace _ trivial

omit [Runtime F] in
theorem forgedLines_clean {out : PyStr} (hout : joinPairs out = out) (n : ℕ) :
    ∀ v ∈ forgedLines (F := F) out n, v.Clean := by
  have hkey : ∀ s : String, (s.toList.all fun c => 0x20 ≤ c.toNat && c.toNat < 0x7f) = true →
      joinPairs (py s) = py s := fun s hs => joinPairs_of_ascii (printable_py hs).isAscii
  have htrace : ∀ evs : List (Json F), CleanList evs → (forgedTrace out evs).Clean := by
    intro evs hevs
    exact ⟨by simp [Dict.keys], ⟨hkey _ (by decide), hout⟩, ⟨hkey _ (by decide), rfl⟩,
      ⟨hkey _ (by decide), trivial⟩, ⟨hkey _ (by decide), List.nodup_nil, trivial⟩,
      ⟨hkey _ (by decide), hevs⟩, trivial⟩
  have hxs : CleanList (List.replicate 16 (Json.int (F := F) hugeInt)) :=
    cleanList_iff.mpr fun x hx => by
      rw [List.eq_of_mem_replicate hx]
      trivial
  intro v hv
  rcases List.mem_cons.mp hv with rfl | hv
  · exact htrace _ ⟨⟨by simp [Dict.keys], ⟨hkey _ (by decide), rfl⟩, ⟨hkey _ (by decide), rfl⟩,
      ⟨hkey _ (by decide), trivial⟩, ⟨hkey _ (by decide), hxs⟩, trivial⟩, trivial⟩
  · rw [List.eq_of_mem_replicate hv]
    exact htrace _ trivial

omit [Runtime F] in
theorem forgedLines_traceOk {out shownOut : PyStr} (hshown : shown out = some shownOut) (n : ℕ) :
    ∀ v ∈ forgedLines (F := F) out n, traceOk v = true := by
  have hhex : (fromHex out).isSome = true := by
    rw [shown] at hshown
    obtain ⟨b, hb, -⟩ := Option.map_eq_some_iff.mp hshown
    rw [hb, Option.isSome_some]
  have htrace : ∀ evs : List (Json F), evs.all eventOk = true →
      traceOk (forgedTrace out evs) = true := by
    intro evs hevs
    simp [traceOk, isHexJson, hhex, hevs, Json.int?, Json.obj?, Json.arr?, fromHex]
  intro v hv
  rcases List.mem_cons.mp hv with rfl | hv
  · refine htrace _ ?_
    have hargs : (Json.arr ([] : List (Json F))).strs? = some [] := rfl
    simp [eventOk, forgedEvent, eventWith, Json.get?, List.lookup_cons, Json.str?, hargs]
  · rw [List.eq_of_mem_replicate hv]
    exact htrace _ rfl

theorem length_forgedTrace_le {out : PyStr} (hout : out.length ≤ 2) (evs : List (Json F)) :
    (dumps plain (forgedTrace out evs)).length ≤
      600 + (evs.map fun e => 2 + (render plain 2 e).length).sum := by
  have hevs := length_render_arr_le plain 1 evs
  have hstr := length_quote_le out
  have hkeys : (quote (py "stdout")).length = 8 ∧ (quote (py "stderr")).length = 8 ∧
      (quote (py "exit_code")).length = 11 ∧ (quote (py "files_written")).length = 15 ∧
      (quote (py "events")).length = 8 := by decide
  have hvalues : (quote []).length = 2 ∧ (intText (-1)).length = 2 ∧
      (py "\x7b\x7d").length = 2 := by decide
  simp only [length_newline_plain, length_itemPad_plain, Nat.reduceAdd] at hevs
  refine (length_render_obj_le plain 0 _).trans ?_
  simp only [length_newline_plain, length_itemPad_plain, length_keyPad_plain, hkeys, hvalues,
    List.map_cons, List.map_nil, List.sum_cons, List.sum_nil, entryRoom, render, Nat.reduceAdd]
  omega

theorem length_eventWith_le (i : ℤ) :
    (render plain 2 (eventWith (F := F) i)).length ≤ 200 + 16 * (intText i).length := by
  have hxs := length_render_arr_le plain 3 (List.replicate 16 (Json.int (F := F) i))
  have hkeys : (quote (py "sc")).length = 4 ∧ (quote (py "phase")).length = 7 ∧
      (quote (py "args")).length = 6 ∧ (quote (py "x")).length = 3 := by decide
  have hvalues : (quote []).length = 2 ∧ (py "[]").length = 2 := by decide
  simp only [length_newline_plain, length_itemPad_plain, List.map_replicate, List.sum_replicate,
    smul_eq_mul, render] at hxs
  refine (length_render_obj_le plain 2 _).trans ?_
  simp only [length_newline_plain, length_itemPad_plain, length_keyPad_plain, hkeys, hvalues,
    List.map_cons, List.map_nil, List.sum_cons, List.sum_nil, entryRoom, render, Nat.reduceAdd]
  omega

theorem length_lines_le [LawfulRuntime F] {out : PyStr} (hout : out.length ≤ 2) {n : ℕ}
    (hn : n ≤ 24) {e : Json F} (he : (render plain 2 e).length ≤ 70000) :
    (encode ((forgedTrace out [e] :: List.replicate n (forgedTrace out [])).flatMap fun l =>
      dumps plain l ++ [ch '\n'])).length ≤ 256 * 1024 := by
  have hone := length_forgedTrace_le hout [e]
  have hrest := length_forgedTrace_le (F := F) hout []
  rw [encode_ascii (isAscii_printed _), List.length_map, List.length_flatMap]
  simp only [List.map_cons, List.map_nil, List.sum_cons, List.sum_nil, List.map_replicate,
    List.sum_replicate, smul_eq_mul, List.length_append, List.length_singleton] at hone hrest ⊢
  have hmul : n * ((dumps plain (forgedTrace (F := F) out [])).length + 1) ≤ 24 * 601 :=
    Nat.mul_le_mul hn (by omega)
  omega

/-- The forged output stays within the cap of the job. -/
theorem length_forged_le [LawfulRuntime F] {out : PyStr} (hout : out.length ≤ 2) {n : ℕ}
    (hn : n ≤ 24) : (encode ((forgedLines (F := F) out n).flatMap fun l =>
      dumps plain l ++ [ch '\n'])).length ≤ 256 * 1024 := by
  refine length_lines_le hout hn ((length_eventWith_le hugeInt).trans ?_)
  rw [length_intText_hugeInt]
  decide

/-- A comparison of forged lines, in either stage, ends in the assertion. -/
theorem judgeLines_forged {p : Replay} {t : Trace} {ts : List Trace} (ht : Recorded F t)
    (htraces : p.traces = t :: ts) (hcompared : p.recorded = [] → hiddenN ≤ p.hidden.length)
    {out shownOut : PyStr} (hshown : shown out = some shownOut) (hout : t.stdout ≠ out) (n : ℕ)
    (factsLimit : ℕ) : judgeLines F factsLimit p (forgedLines out n) = none := by
  rw [Replay.traces] at htraces
  rw [judgeLines, forgedLines]
  rcases hrec : p.recorded with - | ⟨r, rs⟩
  · rw [hrec, List.nil_append] at htraces
    obtain ⟨v, hv, hok, hnone⟩ := compare_forged ht hshown hout ts
      (List.replicate n (forgedTrace out []))
    have hpassed : ∀ gots, compare (F := F) [] gots = some .passed := fun _ => rfl
    have hfull := hcompared hrec
    rw [List.length_nil, hpassed, Option.bind_eq_bind, Option.bind_some,
      if_neg (by simp [Verdict.passed]), if_neg (by omega), htraces, List.drop_zero, hv,
      Option.bind_some, if_pos hok]
    exact hnone _
  · rw [hrec, List.cons_append] at htraces
    obtain ⟨rfl, -⟩ := List.cons.inj htraces
    obtain ⟨v, hv, hok, hnone⟩ := compare_forged ht hshown hout rs
      ((List.replicate n (forgedTrace out [])).take rs.length)
    rw [List.length_cons, List.take_succ_cons, hv, Option.bind_eq_bind, Option.bind_some,
      if_pos hok]
    exact hnone _

/-- The verdict on the forged output. -/
theorem judge_forged [LawfulRuntime F] {p : Replay} (hp : GroundTruth F p) {t : Trace}
    {ts : List Trace} (htraces : p.traces = t :: ts)
    (hcompared : p.recorded = [] → hiddenN ≤ p.hidden.length) {out shownOut : PyStr}
    (hshown : shown out = some shownOut) (hlen : out.length ≤ 2) (hclean : joinPairs out = out)
    (hout : t.stdout ≠ out) (factsLimit : ℕ) :
    judge F factsLimit p (forgedResult F out ts.length) = none := by
  -- at most sixteen nominated and eight hidden cases
  have hcount : ts.length ≤ 24 := by
    have hcases : p.recorded.length = p.cases.length := by
      simpa using congrArg List.length hp.inputs
    have hlength := congrArg List.length htraces
    have hcases_le := hp.cases_le
    have hhidden_le := hp.hidden_le
    have hmax : maxCases = 16 := rfl
    have hN : hiddenN = 8 := rfl
    rw [Replay.traces, List.length_append, List.length_cons] at hlength
    omega
  have hlines := jobLines_printed
    (forgedLines_fits (F := F) out ts.length LawfulRuntime.maxDepth_le)
    (forgedLines_clean hclean ts.length)
  have hresult : forgedResult F out ts.length = ⟨0, false, false, _, [],
      length_forged_le (F := F) hlen hcount, by decide, by decide⟩ :=
    dif_pos (length_forged_le hlen hcount)
  have hreport : compileReport (some (forgedLines (F := F) out ts.length)) = none := by
    simp [compileReport, forgedLines, forgedTrace, sameKeys, Dict.keys]
  have hok : (forgedLines (F := F) out ts.length).length = p.traces.length ∧
      (forgedLines (F := F) out ts.length).all traceOk = true :=
    ⟨by simp [forgedLines, htraces], List.all_eq_true.mpr (forgedLines_traceOk hshown _)⟩
  rw [judge, hresult]
  simp only [Bool.false_eq_true, if_false, if_true, hlines, hreport, hok, and_self]
  exact judgeLines_forged (hp.recorded t (htraces ▸ List.mem_cons_self)) htraces hcompared hshown
    hout _ factsLimit

/-! ### Totality -/

theorem checkReplay_run {ctx : ReplayContext} {p : Replay} (hp : prepare F ctx = .ok p)
    (run : ReplayJob → JobResult) : checkReplay F { ctx with runJob := run } =
      judge F ctx.factsLimit p (run ⟨p.source, p.traces.map Trace.input⟩) := by
  have hprep : prepare F { ctx with runJob := run } = .ok p := hp
  rw [checkReplay, hprep]

/-- **When the checker is total.**  For a candidate that reaches the job, the checker returns a
verdict on every result of the job just where there is nothing to compare it to: no case was
nominated and the hidden suite is short of inputs. -/
theorem replay_total_iff [LawfulRuntime F] {ctx : ReplayContext} {p : Replay}
    (hp : prepare F ctx = .ok p) :
    (∀ run : ReplayJob → JobResult, (checkReplay F { ctx with runJob := run }).isSome = true) ↔
      p.recorded = [] ∧ p.hidden.length < hiddenN := by
  constructor
  · intro htotal
    by_contra hsome
    have hcompared : p.recorded = [] → hiddenN ≤ p.hidden.length := fun h => by
      by_contra hlt
      exact hsome ⟨h, by omega⟩
    obtain ⟨t, ts, htraces⟩ : ∃ t ts, p.traces = t :: ts := by
      refine List.exists_cons_of_ne_nil fun hnil => ?_
      obtain ⟨hrec, hhid⟩ := List.append_eq_nil_iff.mp hnil
      exact absurd (hcompared hrec) (by rw [hhid]; decide)
    -- the forged trace claims an output that the recorded one does not have
    have hforge : ∀ out shownOut : PyStr, shown out = some shownOut → out.length ≤ 2 →
        joinPairs out = out → t.stdout = out := by
      intro out shownOut hshown hlen hclean
      by_contra hout
      have hnone := judge_forged (prepare_spec hp) htraces hcompared hshown hlen hclean hout
        ctx.factsLimit
      have hverdict := htotal fun _ => forgedResult F out ts.length
      rw [checkReplay_run hp, hnone] at hverdict
      exact absurd hverdict (by simp)
    have hempty := hforge [] [] rfl (by decide) rfl
    have hzero := hforge (py "00") _ rfl (by decide) rfl
    exact absurd (hempty.symm.trans hzero) (by decide)
  · rintro ⟨hrec, hhid⟩ run
    rw [checkReplay_run hp]
    exact judge_isSome hrec hhid _ _

/-- A candidate that reaches the job. -/
theorem replay_total_iff_echo : ∃ p, prepare ZeroFloat echoContext = .ok p ∧
    ((∀ run : ReplayJob → JobResult,
      (checkReplay ZeroFloat { echoContext with runJob := run }).isSome = true) ↔
      p.recorded = [] ∧ p.hidden.length < hiddenN) := by
  obtain ⟨p, hp, -, -⟩ := echo_prepared
  exact ⟨p, hp, replay_total_iff hp⟩

/-- A job that forges a crash makes the checker raise. -/
theorem replay_not_total : checkReplay ZeroFloat
    { echoContext with runJob := fun _ => forgedResult ZeroFloat [] 8 } = none := by
  obtain ⟨p, hp, hrec, hhidden⟩ := echo_prepared
  have htraces : p.traces = echoTrace (py "b") [] [0x61] :: p.hidden := by
    rw [Replay.traces, hrec, List.singleton_append]
  have hlen : p.hidden.length = 8 := by rw [hhidden, List.length_map, List.length_range]
  have hout : (echoTrace (py "b") [] [0x61]).stdout ≠ [] := by decide
  have hnone := judge_forged (prepare_spec hp) htraces (by simp [hrec])
    (show shown [] = some [] from rfl) (by decide) rfl hout echoContext.factsLimit
  rw [hlen] at hnone
  rw [checkReplay_run hp]
  exact hnone

end ReSchema
