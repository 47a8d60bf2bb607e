/-
ReSchema/WorkerOutput.lean

The output of an honest worker fits its channels.

There are two of them.  The child of a call writes its answer into a pipe while
the parent only polls, so an answer larger than the pipe would block it until
the deadline; and what the worker prints is the output of the job, which is cut
off at 256 KiB.  A crashed call and a cut-off job count against the candidate.

Neither happens: the names of parameters are short and written as they stand, a
buffer has no more than 32 cells, and there are six parameters and 64 cases at
most.
-/
import ReSchema.FunctionComplete
import ReSchema.ReplaySound

namespace ReSchema

open Py

variable {F : Type} [Runtime F]

/-! ### One call -/

/-- The arguments of a call in the child, from a case of the job. -/
def childArgs (params : List (RawParam F)) (c : Json F) : Option (List (PyStr × NativeArg)) := do
  let case ← readCase params c
  (params.zip case).mapM fun pe => (nativeArg pe.1.kind pe.2.2).map fun a => (pe.2.1, a)

/-- What the child writes after the candidate returned. -/
def childMessage (F : Type) [Runtime F] (args : List (PyStr × NativeArg)) (final : Final) : Bytes :=
  encode (dumps plain (callOutput (F := F) args final))

/-- The message is what the parent reads. -/
theorem runNative_returned {params : List (RawParam F)} {c : Json F} {case : WorkerCase F}
    (hcase : readCase params c = some case) {args : List (PyStr × NativeArg)}
    (hargs : childArgs params c = some args) {model : Model} {k : ℕ} {final : Final}
    (hmodel : model k (args.map Prod.snd) = .returned final) :
    runNative model params k case = readChild (childMessage F args final) := by
  rw [childArgs, hcase, Option.bind_eq_bind, Option.bind_some] at hargs
  rw [runNative, hargs]
  simp only [hmodel]
  rfl

theorem childArgs_wire {ps : List Param} {case : Case} (h : Tame ps case) :
    childArgs (ps.map (Param.raw (F := F))) (.obj (wire case)) =
      some ((valued ps case).map fun e => (e.1.name, e.2.native)) := by
  rw [childArgs, readCase_wire h, Option.bind_eq_bind, Option.bind_some]
  exact nativeArg_items h

/-- **A message fits the pipe.** -/
theorem length_childMessage_lt [LawfulRuntime F] {ps : List Param} (ha : Accepted ps)
    (harity : ps.length ≤ registerCount) {case : Case} (h : Tame ps case) (final : Final) :
    (childMessage F ((valued ps case).map fun e => (e.1.name, e.2.native)) final).length <
      64 * 1024 := by
  have hascii : IsAscii (dumps plain (answer F ps case (.returned final))) :=
    isAscii_render plain_blank _ 0
  rw [childMessage, callOutput_native h final, encode_ascii hascii, List.length_map]
  exact (length_answer_le ha harity h final 0).trans_lt (by decide)

/-! ### The whole output -/

/-- The report of a crash is short. -/
theorem length_crashReport_le {k : PyStr} {v : Json F} {n : ℕ} (hk : k.length ≤ 7) (lvl : ℕ)
    (hv : (render plain (lvl + 1 + 1) v).length ≤ n) :
    (render plain lvl (crashReport [(k, v)])).length ≤ n + 200 := by
  have hquote := length_quote_le k
  have hcrash : (quote (py "crash")).length = 7 := by decide
  have hinner := length_render_obj_le plain (lvl + 1) [(k, v)]
  simp only [List.map_cons, List.map_nil, List.sum_cons, List.sum_nil, entryRoom,
    length_itemPad_plain, length_keyPad_plain, length_newline_plain] at hinner
  refine (length_render_obj_le plain lvl _).trans ?_
  simp only [List.map_cons, List.map_nil, List.sum_cons, List.sum_nil, entryRoom,
    length_itemPad_plain, length_keyPad_plain, length_newline_plain, hcrash]
  omega

/-- Every answer of the worker is short. -/
theorem length_answer_outcome_le {ps : List Param} (ha : Accepted ps)
    (harity : ps.length ≤ registerCount) {case : Case} (h : Tame ps case) (o : NativeOutcome)
    (lvl : ℕ) : (render plain lvl (answer F ps case o)).length ≤ 3600 := by
  cases o with
  | signalled n =>
      have hdigits := length_intText_le (i := n.val) (k := 3) (by decide) (by
        have := n.isLt
        omega)
      refine (length_crashReport_le (n := 4) (by decide) lvl ?_).trans (by decide)
      rwa [render]
  | hung =>
      refine (length_crashReport_le (n := 4) (by decide) lvl ?_).trans (by decide)
      rw [render]
      decide
  | exited =>
      refine (length_crashReport_le (n := 11) (by decide) lvl ?_).trans (by decide)
      rw [render]
      decide
  | returned final => exact length_answer_le ha harity h final lvl

omit [Runtime F] in
theorem length_answersFrom_le (ps : List Param) (model : Model) (k : ℕ)
    (kept : List (Survivor F)) : (answersFrom F ps model k kept).length ≤ kept.length := by
  induction kept generalizing k with
  | nil => exact le_refl _
  | cons s kept ih =>
      have := ih (k + 1)
      rw [answersFrom]
      split_ifs <;> simp only [List.length_cons, List.length_nil] <;> omega

/-- **What the worker prints fits the output of the job.** -/
theorem length_workerOutput_le {ps : List Param} (ha : Accepted ps)
    (harity : ps.length ≤ registerCount) {kept : List (Survivor F)} (hlen : kept.length ≤ 64)
    (hkept : ∀ s ∈ kept, Tame ps s.case) (model : Model) :
    (dumps plain (workerOutput F ps model kept)).length ≤ 256 * 1024 := by
  have hitem : ∀ k ∈ (answersFrom F ps model 0 kept).map (fun v =>
      1 + plain.itemPad.length + (plain.newline (0 + 1 + 1)).length +
        (render plain (0 + 1 + 1) v).length), k ≤ 3602 := by
    intro k hk
    obtain ⟨v, hv, rfl⟩ := List.mem_map.mp hk
    obtain ⟨s, hs, o, rfl⟩ := mem_answersFrom hv
    have := length_answer_outcome_le (F := F) ha harity (hkept s hs) o (0 + 1 + 1)
    rw [length_itemPad_plain, length_newline_plain]
    omega
  have hsum := List.sum_le_card_nsmul _ 3602 hitem
  have hcount := (length_answersFrom_le ps model 0 kept).trans hlen
  rw [List.length_map, smul_eq_mul] at hsum
  have hresults := length_render_arr_le plain (0 + 1) (answersFrom F ps model 0 kept)
  rw [length_newline_plain] at hresults
  have hkeys : (quote (py "ok")).length = 4 ∧ (quote (py "results")).length = 9 := by decide
  have htrue : (py "true").length = 4 := rfl
  refine (length_render_obj_le plain 0 _).trans ?_
  simp only [List.map_cons, List.map_nil, List.sum_cons, List.sum_nil, entryRoom,
    length_itemPad_plain, length_keyPad_plain, length_newline_plain, hkeys]
  rw [render, if_pos rfl, htrue]
  omega

/-! ### The round -/

theorem JobResult.printed_of_le {b : Bytes} (h : b.length ≤ 256 * 1024) :
    (JobResult.printed b).Clean ∧ (JobResult.printed b).stdout = b := by
  rw [JobResult.printed, dif_pos h]
  exact ⟨⟨rfl, rfl, rfl⟩, rfl⟩

/-- **The output of an honest worker fits its channels.**  For every accepted declaration of at
most six parameters, and any part of a round of at most 64 cases, the worker has arguments for each
case, and whatever the candidate leaves behind, the message of the child is smaller than a pipe.
When the candidate is built, what the worker prints is within the cap on the output of the job, so
that the host gets it whole. -/
theorem worker_output_fits [LawfulRuntime F] {raw : Bytes} {x : FunctionRound F}
    (hps : paramsOf F raw = .ok x.params) (harity : x.params.length ≤ 6) (hn : x.nFuzz ≤ 64)
    {kept : List (Survivor F)} (hkept : (kept.map Survivor.toRoundCase).Sublist x.cases)
    (model : Model) :
    (∀ s ∈ kept, ∃ args, childArgs (x.params.map Param.raw) (.obj (wire (F := F) s.case)) =
        some args ∧ ∀ final, (childMessage F args final).length < 64 * 1024) ∧
      ∀ build : Build F, build (joinPairs x.func) (joinPairs x.source) = none →
        ∃ out, workerMain build model (sentJob x kept).stdin = some out ∧
          out.length ≤ 256 * 1024 ∧
          (JobResult.printed out).Clean ∧ (JobResult.printed out).stdout = out := by
  have ha := paramsOf_accepted hps
  have htame : ∀ s ∈ kept, Tame x.params s.case := fun s hs =>
    x.tame ha (hkept.subset (List.mem_map_of_mem hs))
  have hlen : kept.length ≤ 64 := by
    have hle := hkept.length_le
    rw [List.length_map, x.length_cases] at hle
    exact hle.trans hn
  constructor
  · intro s hs
    exact ⟨_, childArgs_wire (htame s hs), length_childMessage_lt ha harity (htame s hs)⟩
  · intro build hbuild
    have hout : (encode (dumps plain (workerOutput F x.params model kept))).length ≤
        256 * 1024 := by
      have hascii : IsAscii (dumps plain (workerOutput F x.params model kept)) :=
        isAscii_render plain_blank _ 0
      rw [encode_ascii hascii, List.length_map]
      exact length_workerOutput_le ha harity hlen htame model
    exact ⟨_, workerMain_eq ha harity htame hbuild model, hout, JobResult.printed_of_le hout⟩

omit [Runtime F] in
theorem survivors_sublist (x : FunctionRound F) (wants : List (Want F)) :
    ((survivors (x.round wants)).map Survivor.toRoundCase).Sublist x.cases := by
  have hsub : ∀ (cs : List RoundCase) (ws : List (Want F)),
      ((survivors (cs.zip ws)).map Survivor.toRoundCase).Sublist cs := by
    intro cs
    induction cs with
    | nil => exact fun ws => .slnil
    | cons c cs ih =>
        intro ws
        rcases ws with - | ⟨memFault | ⟨ret, mem⟩, ws⟩
        · exact List.nil_sublist _
        · exact (ih ws).cons _
        · exact (ih ws).cons_cons _
  exact hsub x.cases wants

theorem worker_output_fits_zero :
    (∀ s ∈ zeroKept, ∃ args, childArgs (zeroRound.params.map Param.raw)
        (.obj (wire (F := ZeroFloat) s.case)) = some args ∧
        ∀ final, (childMessage ZeroFloat args final).length < 64 * 1024) ∧
      ∀ build : Build ZeroFloat,
        build (joinPairs zeroRound.func) (joinPairs zeroRound.source) = none →
        ∃ out, workerMain build zeroModel (sentJob zeroRound zeroKept).stdin = some out ∧
          out.length ≤ 256 * 1024 ∧
          (JobResult.printed out).Clean ∧ (JobResult.printed out).stdout = out :=
  worker_output_fits (paramsOf_dumps accepted_zeroRound) (by decide) (by decide)
    (survivors_sublist zeroRound zeroWants) zeroModel

end ReSchema
