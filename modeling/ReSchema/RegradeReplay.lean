/-
ReSchema/RegradeReplay.lean

What a re-grade exposes to the checker.

A check that was recorded has a stream of seeds behind it, of which the
evidence has the ones that were drawn.  `Proc.play` is the run on the whole
stream; on the evidence a replay does the same as long as it draws no more
than was recorded, and stops at the first draw beyond (`replay_play`).

The evidence of a check is intact (`Intact`) when the ledger has the files as
the host lays them out.  Then `_evidence` returns just these files, without the
notes (`evidence_intact`), and the row of the check has the verdict of the
current checker on them (`regradeCheck_intact`).
-/
import ReSchema.RegradeEvidence
import ReSchema.Py.Interpreter

namespace ReSchema

open Py

variable {F : Type}

/-! ### Runs of a checker -/

/-- How a check ends: the verdict, unless the checker raises, the number of seeds drawn, and the
images of its jobs in order. -/
structure Played (F : Type) where
  verdict : Option (CheckVerdict F)
  drawn : ℕ
  images : List PyStr

/-- A check on a stream of seeds, with so many of them already drawn. -/
def Proc.play (runJob : Job → JobResult) (draws : ℕ → ℤ) (drawn : ℕ) : Proc F → Played F
  | .done v => ⟨some v, drawn, []⟩
  | .fault => ⟨none, drawn, []⟩
  | .draw next => play runJob draws (drawn + 1) (next (.int (draws drawn)))
  | .run job next =>
      let p := play runJob draws drawn (next (runJob job))
      { p with images := job.image :: p.images }

/-- How a replay ends where the seeds suffice. -/
def Played.ended (p : Played F) : Replayed F :=
  match p.verdict with
  | some v => .verdict v
  | none => .escapes

theorem Proc.le_drawn (runJob : Job → JobResult) (draws : ℕ → ℤ) (p : Proc F) (n : ℕ) :
    n ≤ (p.play runJob draws n).drawn := by
  induction p generalizing n with
  | done v => exact le_rfl
  | fault => exact le_rfl
  | draw next ih => exact (Nat.le_succ n).trans (ih _ (n + 1))
  | run job next ih => exact ih _ n

/-- **The replay.**  On recorded seeds a check does what it does on any stream that starts with them,
up to a draw beyond the last one. -/
theorem replay_play (host : Host) (draws : ℕ → ℤ) {seeds : List ℤ}
    (hseeds : ∀ i (h : i < seeds.length), seeds[i] = draws i) (p : Proc F) {n : ℕ}
    (hn : n ≤ seeds.length) :
    replay host (.arr (seeds.map .int)) n p =
      if (p.play host.runJob draws n).drawn ≤ seeds.length
      then (p.play host.runJob draws n).ended
      else .unreplayable (py "the checker draws more seeds than were recorded") := by
  induction p generalizing n with
  | done v => exact (if_pos hn).symm
  | fault => exact (if_pos hn).symm
  | run job next ih => exact ih _ hn
  | draw next ih =>
      have hlen : Json.len? (.arr (seeds.map .int) : Json F) = some seeds.length := by
        simp [Json.len?, Json.items?]
      rw [replay, hlen, Proc.play]
      by_cases hlast : seeds.length = n
      · -- all of them are drawn
        have hmore := Proc.le_drawn host.runJob draws (next (.int (draws n))) (n + 1)
        rw [if_pos (congrArg some hlast), if_neg (by omega)]
      · have hlt : n < seeds.length := by omega
        have hitem : Json.item? (.arr (seeds.map .int) : Json F) n = some (.int (draws n)) := by
          simp [Json.item?, hlt, hseeds n hlt]
        rw [if_neg fun h => hlast (Option.some.inj h), hitem]
        exact ih _ hlt

/-! ### Names of evidence -/

/-- The text up to the first separator, of one code point. -/
theorem partition_single {c : CodePoint} {s : PyStr} (h : c ∉ s) (r : PyStr) :
    partition [c] (s ++ c :: r) = (s, r) := by
  induction s with
  | nil => simp [partition]
  | cons d s ih =>
      rw [List.mem_cons, not_or] at h
      obtain ⟨hd, hs⟩ := h
      have hne : [c].isPrefixOf (d :: (s ++ c :: r)) = false := by simp [List.isPrefixOf, hd]
      rw [List.cons_append, partition, hne, if_neg Bool.false_ne_true, ih hs]

theorem partition_slash {s : PyStr} (h : ch '/' ∉ s) (r : PyStr) :
    partition (py "/") (s ++ py "/" ++ r) = (s, r) := by
  rw [List.append_assoc]
  exact partition_single h r

/-- The text up to a separator that starts nowhere before. -/
theorem partition_first {sep s : PyStr} (r : PyStr)
    (h : ∀ t u, s = t ++ u → u ≠ [] → ¬ sep <+: u ++ (sep ++ r)) (hsep : sep ≠ []) :
    partition sep (s ++ (sep ++ r)) = (s, r) := by
  induction s with
  | nil =>
      obtain ⟨c, sep', rfl⟩ := List.exists_cons_of_ne_nil hsep
      have hp : (c :: sep').isPrefixOf (c :: (sep' ++ r)) = true := by
        simp
      rw [List.nil_append, List.cons_append, partition, if_pos hp]
      simp
  | cons d s ih =>
      have hne : ¬ sep.isPrefixOf (d :: (s ++ (sep ++ r))) = true := by
        rw [List.isPrefixOf_iff_prefix]
        exact h [] (d :: s) rfl (List.cons_ne_nil d s)
      rw [List.cons_append, partition, if_neg hne,
        ih fun t u hs hu => h (d :: t) u (by rw [hs, List.cons_append]) hu]

/-- The separator before the files of a candidate starts nowhere before its place, when the text in
front of it has no directory of that name. -/
theorem partition_candidate {s : PyStr} (h : ¬ py "/candidate" <:+: s) (r : PyStr) :
    partition (py "/candidate/") (s ++ py "/candidate/" ++ r) = (s, r) := by
  have hborder : ∀ k < 12, (py "/candidate/").drop k <+: py "/candidate/" →
      k = 0 ∨ py "/candidate" <:+: (py "/candidate/").take k := by decide
  rw [List.append_assoc]
  refine partition_first r (fun t u hs hu hpre => ?_) (by decide)
  have hinfix : u <:+: s := ⟨t, [], by rw [hs, List.append_nil]⟩
  obtain ⟨w, hw⟩ := hpre
  rcases List.append_eq_append_iff.mp hw with ⟨c, hc, hrest⟩ | ⟨c, hc, hrest⟩
  · -- the separator within the text in front
    have hsep : py "/candidate" <:+: u := by
      rw [hc]
      exact (show py "/candidate" <:+: py "/candidate/" by decide).trans ⟨[], c, rfl⟩
    exact h (hsep.trans hinfix)
  · -- the separator across the end of that text
    have hpre : c <+: py "/candidate/" ++ r := ⟨w, hrest.symm⟩
    have hlen : c.length ≤ (py "/candidate/").length := by
      rw [hc, List.length_append]
      exact Nat.le_add_left _ _
    have hc' : c <+: py "/candidate/" :=
      List.prefix_of_prefix_length_le hpre (List.prefix_append _ r) hlen
    have hdrop : (py "/candidate/").drop u.length = c := by rw [hc, List.drop_left]
    have htake : (py "/candidate/").take u.length = u := by rw [hc, List.take_left]
    have hlt : u.length < 12 := by
      have : (py "/candidate/").length = 11 := by decide
      rw [hc, List.length_append] at this
      omega
    rcases hborder u.length hlt (hdrop ▸ hc') with h0 | hdir
    · exact hu (List.length_eq_zero_iff.mp h0)
    · rw [htake] at hdir
      exact h (hdir.trans hinfix)

section Names

variable (F) [Runtime F]

theorem slash_notMem_natText (n : ℕ) : ch '/' ∉ natText n := fun h => by
  have := isDigit_of_mem_natText h
  exact absurd this (by decide)

theorem isDecimal_natText (n : ℕ) : isDecimal F (natText n) = true := by
  rw [isDecimal, Bool.and_eq_true, List.all_eq_true]
  refine ⟨decide_eq_true (natText_ne_nil n), fun c hc => ?_⟩
  rw [decimalVal, if_pos (isDigit_of_mem_natText hc)]
  rfl

theorem intDecimal_natText {n : ℕ} (h : (natText n).length ≤ maxStrDigits) :
    intDecimal F (natText n) = some n := by
  have hval : ∀ (ds : PyStr) (k : ℕ), (∀ c ∈ ds, isDigit c = true) →
      ds.foldl (fun n c => 10 * n + (decimalVal F c).getD 0) k =
        ds.foldl (fun n c => 10 * n + (c.val - 0x30)) k := by
    intro ds
    induction ds with
    | nil => exact fun _ _ => rfl
    | cons c ds ih =>
        intro k hds
        obtain ⟨hc, hrest⟩ := List.forall_mem_cons.mp hds
        rw [List.foldl_cons, List.foldl_cons, ih _ hrest, decimalVal, if_pos hc, Option.getD_some]
  rw [intDecimal, if_pos h, hval _ _ fun c hc => isDigit_of_mem_natText hc]
  exact congrArg some (digitsVal_natText n)

end Names

/-- What an input of a check is: the submission, a file of the task that the worker sees, or one
that it does not see. -/
inductive Channel
  | submission
  | input (file : PyStr)
  | priv (file : PyStr)

def Channel.text : Channel → PyStr
  | .submission => py "submission.json"
  | .input file => py "input/" ++ file
  | .priv file => py "private/" ++ file

/-- A channel whose file, if it is one, has a name in one line. -/
def Channel.Named : Channel → Prop
  | .submission => True
  | .input file => file ≠ [] ∧ ch '\n' ∉ file
  | .priv file => file ≠ [] ∧ ch '\n' ∉ file

/-- An input of a check: the observation it is from, its revision if there is one, its channel and
its artifact. -/
structure EvidenceInput where
  sequence : ℕ
  revision : Option ℕ
  channel : Channel
  ref : Ref

/-- The name of an input, in the layout of the host. -/
def EvidenceInput.name (e : EvidenceInput) : PyStr :=
  py "observation/" ++ natText e.sequence ++ py "/" ++
    (match e.revision with
      | none => []
      | some r => py "revision/" ++ natText r ++ py "/") ++ e.channel.text

theorem Channel.text_spec {c : Channel} (h : c.Named) :
    c.text ≠ [] ∧ ch '\n' ∉ c.text ∧ stripPrefix (py "revision/") c.text = none := by
  cases c with
  | submission => decide
  | input file =>
      refine ⟨List.cons_ne_nil _ _, ?_, rfl⟩
      rw [text, List.mem_append, not_or]
      exact ⟨by decide, h.2⟩
  | priv file =>
      refine ⟨List.cons_ne_nil _ _, ?_, rfl⟩
      rw [text, List.mem_append, not_or]
      exact ⟨by decide, h.2⟩

/-- The expression for the names reads them back. -/
theorem matchEvidence_name (F : Type) [Runtime F] (e : EvidenceInput) (h : e.channel.Named) :
    matchEvidence F e.name = some (natText e.sequence, e.channel.text) := by
  obtain ⟨hne, hline, hrev⟩ := Channel.text_spec h
  obtain ⟨n, r, c, ref⟩ := e
  dsimp only at hne hline hrev
  have hn := partition_slash (slash_notMem_natText n)
  cases r with
  | none =>
      have hname : EvidenceInput.name ⟨n, none, c, ref⟩ =
          py "observation/" ++ (natText n ++ py "/" ++ c.text) := by
        simp only [EvidenceInput.name, List.append_assoc, List.append_nil]
      rw [hname, matchEvidence, stripPrefix_append]
      simp only [Option.bind_eq_bind, Option.bind_some, hn, hrev, isDecimal_natText, hne, hline,
        ne_eq, not_false_eq_true, and_self, if_true]
  | some r =>
      have hr := partition_slash (slash_notMem_natText r) c.text
      have hname : EvidenceInput.name ⟨n, some r, c, ref⟩ =
          py "observation/" ++ (natText n ++ py "/" ++
            (py "revision/" ++ (natText r ++ py "/" ++ c.text))) := by
        simp only [EvidenceInput.name, List.append_assoc]
      rw [hname, matchEvidence, stripPrefix_append]
      simp only [Option.bind_eq_bind, Option.bind_some, hn, stripPrefix_append, hr,
        isDecimal_natText, hne, hline, ne_eq, not_false_eq_true, and_self, if_true]

/-! ### Intact evidence -/

/-- A file of a submission: its name, what stands in front of it in the name of the input, and the
artifact with its content. -/
structure Captured where
  front : PyStr
  file : PyStr
  ref : Ref
  content : Bytes

def Captured.name (c : Captured) : PyStr := c.front ++ py "/candidate/" ++ c.file

/-- A check as it was recorded: the files of the candidate with the notes, the inputs, the private
files, the verdict's status, the seeds in the order they were drawn and the images of the jobs. -/
structure Recording where
  candidate : Dict Bytes
  inputs : Dict Bytes
  priv : Dict Bytes
  status : PyStr
  seeds : List ℤ
  images : List PyStr

/-- Where in the ledger it is recorded. -/
structure Layout (F : Type) where
  items : List EvidenceInput
  sequence : ℕ
  target : Ref
  observation : Observation
  captured : List Captured
  claimed : Dict (Json F)
  artifacts : Dict Ref
  verdict : Json F

/-- The files among the inputs of a check. -/
def inputFile (e : EvidenceInput) : Option (PyStr × Ref) :=
  match e.channel with
  | .input file => some (file, e.ref)
  | _ => none

def privFile (e : EvidenceInput) : Option (PyStr × Ref) :=
  match e.channel with
  | .priv file => some (file, e.ref)
  | _ => none

/-- **Intact evidence.**  The operation is verified, its inputs are the files and the one submission
that it names, the observation of this submission has the files that the submission claims, and the
completion has the verdict, the seeds and the jobs. -/
structure Intact [Runtime F] (ledger : Ledger) (op : Operation) (R : Recording) (l : Layout F) :
    Prop where
  verified : ledger.lookup op = .ok op
  layout : op.inputs = l.items.map fun e => (e.name, e.ref)
  named : ∀ e ∈ l.items, e.channel.Named
  submission : ∃ e ∈ l.items, e.channel = .submission
  target : ∀ e ∈ l.items, e.channel = .submission → e.sequence = l.sequence ∧ e.ref = l.target
  sequence_le : (natText l.sequence).length ≤ maxStrDigits
  inputs : List.Forall₂ ledger.Holds (l.items.filterMap inputFile) R.inputs
  inputs_nodup : R.inputs.keys.Nodup
  priv : List.Forall₂ ledger.Holds (l.items.filterMap privFile) R.priv
  priv_nodup : R.priv.keys.Nodup
  observed : l.observation ∈ ledger.history ∧ l.observation.sequence = l.sequence
  observed_once : ∀ o ∈ ledger.history, o.sequence = l.sequence → o = l.observation
  captured : l.observation.inputs = l.captured.map fun c => (c.name, c.ref)
  front : ∀ c ∈ l.captured, ¬ py "/candidate" <:+: c.front
  content : ∀ c ∈ l.captured, ledger.read c.ref = .ok c.content
  candidate : R.candidate = l.captured.map fun c => (c.file, c.content)
  candidate_nodup : R.candidate.keys.Nodup
  claims : ledger.HoldsJson l.target (.obj l.claimed : Json F)
  claimed : ∀ c ∈ l.captured, l.claimed.lookup c.file = some (.str c.ref.digest)
  claimed_length : l.claimed.length = l.captured.length
  artifacts : op.artifacts = some l.artifacts
  verdict : ∃ ref, l.artifacts.lookup (py "verdict.json") = some ref ∧ ledger.HoldsJson ref l.verdict
  status : l.verdict.get? (py "status") = some (.str R.status)
  seeds : ∃ ref, l.artifacts.lookup (py "seeds.json") = some ref ∧
    ledger.HoldsJson ref (.arr (R.seeds.map .int) : Json F)
  jobs : ∃ ref js, l.artifacts.lookup (py "jobs.json") = some ref ∧
    ledger.HoldsJson ref (.arr js : Json F) ∧
    List.Forall₂ (fun j image => j.get? (py "image") = some (.str image)) js R.images

/-- The candidate as a checker sees it. -/
def Recording.shown (R : Recording) : Dict Bytes := R.candidate.filter fun p => p.1 ∉ noteFiles

section Evidence

variable [Runtime F] {ledger : Ledger}

/-- The role of an input is its channel. -/
theorem roleOf_name (F : Type) [Runtime F] {e : EvidenceInput} (h : e.channel.Named)
    (hlen : e.channel = .submission → (natText e.sequence).length ≤ maxStrDigits) :
    roleOf F e.name = some (match e.channel with
      | .submission => .submission e.sequence
      | .input file => .input file
      | .priv file => .priv file) := by
  rw [roleOf, matchEvidence_name F e h]
  dsimp only [Option.bind_eq_bind, Option.bind_some]
  rcases hc : e.channel with - | file | file
  · rw [Channel.text, if_pos rfl, intDecimal_natText F (hlen hc)]
    rfl
  · rw [hc] at h
    have hp : partition (py "/") (py "input" ++ py "/" ++ file) = (py "input", file) :=
      partition_slash (by decide) file
    have hne : Channel.text (.input file) ≠ py "submission.json" := fun he => by
      cases (List.cons.inj he).1
    rw [if_neg hne, show Channel.text (.input file) = py "input" ++ py "/" ++ file from rfl, hp,
      if_pos ⟨rfl, h.1⟩]
  · rw [hc] at h
    have hp : partition (py "/") (py "private" ++ py "/" ++ file) = (py "private", file) :=
      partition_slash (by decide) file
    have hne : Channel.text (.priv file) ≠ py "submission.json" := fun he => by
      cases (List.cons.inj he).1
    rw [if_neg hne, show Channel.text (.priv file) = py "private" ++ py "/" ++ file from rfl, hp,
      if_neg (by simp), if_pos ⟨rfl, h.1⟩]

theorem getLast?_of_forall_eq {α : Type} {l : List α} {a : α} (hne : l ≠ []) (h : ∀ b ∈ l, b = a) :
    l.getLast? = some a := by
  rw [List.getLast?_eq_some_getLast hne, h _ (List.getLast_mem hne)]

theorem observationAt_eq {n : ℕ} {o : Observation} (hmem : o ∈ ledger.history)
    (hseq : o.sequence = n) (honce : ∀ o' ∈ ledger.history, o'.sequence = n → o' = o) :
    observationAt ledger n = some o := by
  rcases hfind : observationAt ledger n with - | o'
  · have hnone := List.find?_eq_none.mp hfind o (List.mem_reverse.mpr hmem)
    exact absurd (decide_eq_true hseq) hnone
  · have hsat := List.find?_some (p := fun o : Observation => decide (o.sequence = n)) hfind
    rw [honce o' (List.mem_reverse.mp (List.mem_of_find?_eq_some hfind)) (of_decide_eq_true hsat)]

/-- The inputs of an intact check are its files and the submission. -/
theorem Intact.submitted {op : Operation} {R : Recording} {l : Layout F} (h : Intact ledger op R l) :
    Submitted F ledger op ⟨R.inputs, R.priv, l.sequence, l.target, l.observation⟩ := by
  have hrole : ∀ e ∈ l.items, roleOf F e.name = _ := fun e he =>
    roleOf_name F (h.named e he) fun hc => (h.target e he hc).1 ▸ h.sequence_le
  have hins : op.inputs.filterMap (inputOf F) = l.items.filterMap inputFile := by
    rw [h.layout, List.filterMap_map]
    refine List.filterMap_congr fun e he => ?_
    rw [Function.comp_apply, inputOf, hrole e he, inputFile]
    cases e.channel <;> rfl
  have hprivs : op.inputs.filterMap (privOf F) = l.items.filterMap privFile := by
    rw [h.layout, List.filterMap_map]
    refine List.filterMap_congr fun e he => ?_
    rw [Function.comp_apply, privOf, hrole e he, privFile]
    cases e.channel <;> rfl
  refine ⟨?_, hins ▸ h.inputs, hprivs ▸ h.priv, getLast?_of_forall_eq ?_ ?_,
    observationAt_eq h.observed.1 h.observed.2 h.observed_once⟩
  · rw [h.layout]
    refine List.forall_mem_map.mpr fun e he => ?_
    rw [hrole e he]
    rfl
  · obtain ⟨e, he, hsub⟩ := h.submission
    have hmem : (e.name, e.ref) ∈ op.inputs := h.layout ▸ List.mem_map_of_mem he
    have htarget : targetOf F (e.name, e.ref) = some (e.sequence, e.ref) := by
      rw [targetOf, hrole e he, hsub]
    exact List.ne_nil_of_mem (List.mem_filterMap.mpr ⟨_, hmem, htarget⟩)
  · -- every submission among the inputs is the one that the layout names
    intro t ht
    obtain ⟨input, hmem, hinput⟩ := List.mem_filterMap.mp ht
    rw [h.layout] at hmem
    obtain ⟨e, he, rfl⟩ := List.mem_map.mp hmem
    rw [targetOf, hrole e he] at hinput
    rcases hc : e.channel with - | file | file
    · rw [hc] at hinput
      obtain ⟨hseq, href⟩ := h.target e he hc
      rw [← Option.some.inj hinput, hseq, href]
    · rw [hc] at hinput
      cases hinput
    · rw [hc] at hinput
      cases hinput

/-- The observed files are those of the candidate, with the notes left out. -/
theorem Intact.captures {op : Operation} {R : Recording} {l : Layout F} (h : Intact ledger op R l) :
    Captures ledger (.obj l.claimed : Json F) l.observation.inputs R.shown := by
  have hfile : ∀ c ∈ l.captured, candidateFile (c.name, c.ref) = c.file := by
    intro c hc
    rw [candidateFile, Captured.name, partition_candidate (h.front c hc)]
  refine ⟨?_, ?_, ?_⟩
  · rw [h.captured]
    refine List.forall_mem_map.mpr fun c hc => ?_
    rw [hfile c hc]
    exact h.claimed c hc
  · have hnames : (l.observation.inputs.map fun input => (candidateFile input, input.2)) =
        l.captured.map fun c => (c.file, c.ref) := by
      rw [h.captured, List.map_map]
      refine List.map_congr_left fun c hc => ?_
      rw [Function.comp_apply, hfile c hc]
    rw [hnames, Recording.shown, h.candidate, List.filter_map, List.filter_map,
      List.forall₂_map_left_iff, List.forall₂_map_right_iff]
    exact List.forall₂_same.mpr fun c hc => ⟨rfl, h.content c (List.mem_of_mem_filter hc)⟩
  · rw [h.captured, List.length_map, ← h.claimed_length]
    simp [Json.len?, Json.items?, Dict.keys]

/-- **What the re-grade exposes.**  From intact evidence `_evidence` returns the recorded files,
the candidate without its notes, and the recorded verdict, seeds and images. -/
theorem evidence_intact (host : Host) {op : Operation} {R : Recording} {l : Layout F}
    (h : Intact ledger op R l) :
    evidence host ledger F op = .ok ⟨R.shown, R.inputs, R.priv, l.verdict,
      .arr (R.seeds.map .int), R.images.map .str⟩ := by
  obtain ⟨verdictRef, hverdict, hverdictJson⟩ := h.verdict
  obtain ⟨seedsRef, hseeds, hseedsJson⟩ := h.seeds
  obtain ⟨jobsRef, js, hjobs, hjobsJson, himages⟩ := h.jobs
  have hnodup : R.shown.keys.Nodup :=
    h.candidate_nodup.sublist (List.filter_sublist.map Prod.fst)
  have hup : Upheld ledger op ⟨R.inputs, R.priv, l.sequence, l.target, l.observation⟩
      (.obj l.claimed) R.shown := ⟨h.submitted, h.claims, h.captures⟩
  refine evidence_ok_iff.mpr ⟨_, _, _, _, verdictRef, seedsRef, jobsRef, hup,
    ⟨l.artifacts, h.artifacts, hverdict, hseeds, hjobs⟩, hverdictJson, hseedsJson, hjobsJson,
    ⟨js, rfl, ?_⟩, (Dict.update_nil hnodup).symm, (Dict.update_nil h.inputs_nodup).symm,
    (Dict.update_nil h.priv_nodup).symm⟩
  exact List.forall₂_map_right_iff.mpr (himages.imp fun j image hj => ⟨hj, rfl⟩)

end Evidence

/-! ### Rows -/

/-- A row carries exactly one of `refused`, `unreplayable` and `holds`. -/
inductive Row.Settled : Row F → Prop
  | refused {row : Row F} : row.refused.isSome → row.unreplayable = none → row.holds = none →
      Settled row
  | unreplayable {row : Row F} : row.refused = none → row.unreplayable.isSome → row.holds = none →
      Settled row
  | holds {row : Row F} : row.refused = none → row.unreplayable = none → row.holds.isSome →
      Settled row

/-- The operation is a check of the name in that run and submission, it is completed, and the
arguments let it pass. -/
structure Selected (F : Type) [Runtime F] (flt : RowFilter) (op : Operation) (run : PyStr)
    (number : ℕ) (name : PyStr) : Prop where
  kind : op.kind = py "check"
  named : ∃ n, matchCheck F op.operationId = some (run, n, name) ∧ intDecimal F n = some number
  completed : op.artifacts.isSome
  run_eq : ∀ r, flt.run = some r → r = run
  submission_eq : ∀ k, flt.submission = some k → k = number

/-- The check has a verdict, and its jobs ran on the current image. -/
structure Judged (domain : Domain F) (R : Recording) : Prop where
  status : R.status = VerdictStatus.passed.text ∨ R.status = VerdictStatus.rejected.text
  images : ∀ image ∈ R.images, image = domain.workerImage

/-- The check was recorded by this checker: on the files and some stream of seeds it ends with the
recorded status, and the seeds and the images of its jobs are the recorded ones. -/
def RecordedBy (host : Host) (checker : Checker F) (R : Recording) : Prop :=
  ∃ (draws : ℕ → ℤ) (v : CheckVerdict F),
    (checker.check R.shown R.inputs R.priv).play host.runJob draws 0 =
      ⟨some v, R.seeds.length, R.images⟩ ∧
    (∀ i (h : i < R.seeds.length), R.seeds[i] = draws i) ∧ R.status = v.status.text

section Rows

variable [Runtime F] {host : Host} {ledger : Ledger} {domain : Domain F} {flt : RowFilter}

theorem regradeEvidence_settled {op : Operation} {row row' : Row F} {ev : Evidence F}
    (hstart : row.refused = none ∧ row.unreplayable = none ∧ row.holds = none)
    (h : regradeEvidence host domain op row ev = some row') : row'.Settled := by
  obtain ⟨hr, hu, hh⟩ := hstart
  obtain ⟨status, -, h⟩ := Option.bind_eq_some_iff.mp h
  dsimp only at h
  split at h
  · cases h
    exact .unreplayable hr rfl hh
  · split at h
    · cases h
      exact .unreplayable hr rfl hh
    · split at h
      · cases h
        exact .unreplayable hr rfl hh
      · split at h
        · cases h
        · cases h
          exact .unreplayable hr rfl hh
        · cases h
          exact .holds hr hu rfl

theorem regradeCheck_settled {op : Operation} {row row' : Row F}
    (hstart : row.refused = none ∧ row.unreplayable = none ∧ row.holds = none)
    (h : regradeCheck host ledger domain op row = some row') : row'.Settled := by
  rw [regradeCheck] at h
  split at h
  · cases h
    exact .refused rfl hstart.2.1 hstart.2.2
  · cases h
    exact .unreplayable hstart.1 rfl hstart.2.2
  · cases h
  · exact regradeEvidence_settled hstart h

theorem regradeEvidence_of {op : Operation} {row row' : Row F} {ev : Evidence F}
    (h : regradeEvidence host domain op row ev = some row') :
    row'.run = row.run ∧ row'.submission = row.submission ∧ row'.check = row.check := by
  obtain ⟨status, -, h⟩ := Option.bind_eq_some_iff.mp h
  dsimp only at h
  split at h
  · cases h
    exact ⟨rfl, rfl, rfl⟩
  · split at h
    · cases h
      exact ⟨rfl, rfl, rfl⟩
    · split at h
      · cases h
        exact ⟨rfl, rfl, rfl⟩
      · split at h
        · cases h
        · cases h
          exact ⟨rfl, rfl, rfl⟩
        · cases h
          exact ⟨rfl, rfl, rfl⟩

/-- A row is about the check that it was started for. -/
theorem regradeCheck_of {op : Operation} {row row' : Row F}
    (h : regradeCheck host ledger domain op row = some row') :
    row'.run = row.run ∧ row'.submission = row.submission ∧ row'.check = row.check := by
  rw [regradeCheck] at h
  split at h
  · cases h
    exact ⟨rfl, rfl, rfl⟩
  · cases h
    exact ⟨rfl, rfl, rfl⟩
  · cases h
  · exact regradeEvidence_of h

theorem regradeOperation_settled {op : Operation} {row : Row F}
    (h : regradeOperation host ledger domain flt op = some (some row)) : row.Settled := by
  rw [regradeOperation] at h
  split at h
  · cases h
  · split at h
    · cases h
    · split at h
      · cases h
      · obtain ⟨number, -, h⟩ := Option.bind_eq_some_iff.mp h
        split at h
        · cases h
        · obtain ⟨row', hrow, hsome⟩ := Option.map_eq_some_iff.mp h
          cases hsome
          exact regradeCheck_settled ⟨rfl, rfl, rfl⟩ hrow

/-- The rows of a re-grade are those of its operations. -/
theorem mem_regrade {rows : List (Row F)} (h : regrade host ledger domain flt = some rows)
    {row : Row F} : row ∈ rows ↔
      ∃ op ∈ ledger.operations, regradeOperation host ledger domain flt op = some (some row) := by
  obtain ⟨found, hfound, rfl⟩ := Option.map_eq_some_iff.mp h
  have hall := mapM_some.mp hfound
  simp only [List.mem_filterMap, id_eq, exists_eq_right]
  constructor
  · intro hmem
    exact related_left hall hmem
  · rintro ⟨op, hop, hrow⟩
    obtain ⟨found', hmem, heq⟩ := related_right hall hop
    rw [hrow, Option.some.injEq] at heq
    exact heq ▸ hmem

theorem regradeOperation_selected {op : Operation} {run name : PyStr} {number : ℕ}
    (h : Selected F flt op run number name) :
    regradeOperation host ledger domain flt op =
      (regradeCheck host ledger domain op (.start run number name)).map some := by
  obtain ⟨n, hmatch, hnumber⟩ := h.named
  have hrun : flt.run.any (· ≠ run) = false := by
    rcases hr : flt.run with - | r
    · rfl
    · simpa using h.run_eq r hr
  have hsub : flt.submission.any (· ≠ number) = false := by
    rcases hs : flt.submission with - | k
    · rfl
    · simpa using h.submission_eq k hs
  have hcond : ¬ (op.kind ≠ py "check" ∨ op.artifacts.isNone = true) := by
    rw [not_or, not_not, Option.isNone_iff_eq_none, ← ne_eq, Option.ne_none_iff_isSome]
    exact ⟨h.kind, h.completed⟩
  rw [regradeOperation, hmatch]
  dsimp only
  rw [if_neg hcond, hrun, if_neg Bool.false_ne_true, hnumber]
  show (if flt.submission.any (· ≠ number) = true then _ else _) = _
  rw [hsub, if_neg Bool.false_ne_true]

/-- The row of a judged check with intact evidence, by the replay of the current checker. -/
theorem regradeCheck_intact {op : Operation} {R : Recording} {l : Layout F}
    (h : Intact ledger op R l) (hjudged : Judged domain R) {row : Row F} {checker : Checker F}
    (hchecker : domain.checkers.lookup row.check = some checker) :
    regradeCheck host ledger domain op row =
      match replay host (.arr (R.seeds.map .int)) 0 (checker.check R.shown R.inputs R.priv) with
      | .escapes => none
      | .unreplayable text => some { row with
          recorded := some (.str R.status)
          checkerVersion := some (op.producerVersion, checker.version)
          unreplayable := some text }
      | .verdict v => some { row with
          recorded := some (.str R.status)
          checkerVersion := some (op.producerVersion, checker.version)
          regraded := some v.status.text
          holds := some (decide (v.status.text = R.status))
          feedback := if v.status.text = R.status then none else some v.feedback } := by
  have hinfra : pyEq (.str R.status) (.str (py "infrastructure_failure") : Json F) = false := by
    rw [Bool.eq_false_iff, ne_eq, pyEq_str, Json.str.injEq]
    rcases hjudged.status with hs | hs
    · rw [hs]
      decide
    · rw [hs]
      decide
  have himages : ∀ image ∈ (R.images.map .str : List (Json F)),
      image.str? = some domain.workerImage := by
    intro image himage
    obtain ⟨s, hs, rfl⟩ := List.mem_map.mp himage
    rw [Json.str?, hjudged.images s hs]
  have hholds : ∀ v : CheckVerdict F, pyEq (.str v.status.text) (.str R.status : Json F) =
      decide (v.status.text = R.status) := by
    intro v
    rw [Bool.eq_iff_iff, pyEq_str, Json.str.injEq, decide_eq_true_iff, eq_comm]
  -- the steps of the loop in turn: verified, intact, judged, a checker, the current image
  rw [regradeCheck, h.verified]
  dsimp only
  rw [evidence_intact host h]
  dsimp only
  rw [regradeEvidence, h.status]
  show (if pyEq (.str R.status) (.str (py "infrastructure_failure") : Json F) = true then _ else _) = _
  rw [hinfra, if_neg Bool.false_ne_true]
  dsimp only
  rw [hchecker]
  dsimp only
  rw [if_neg fun hne => hne.2 himages]
  rcases replay host (.arr (R.seeds.map .int)) 0 (checker.check R.shown R.inputs R.priv)
    with v | text | -
  · simp only [hholds, decide_eq_true_eq]
  · rfl
  · rfl

end Rows

end ReSchema
