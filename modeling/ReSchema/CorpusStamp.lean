/-
ReSchema/CorpusStamp.lean

When the stamp of the corpus is honest.

`load_manifest` refuses a corpus with the stamp of another canonicaliser, and
every build that gets that far renews the stamp.  A targeted build keeps the
entries that are out of its scope, though, and the stamp is one for the whole
corpus: entries of an older canonicaliser come under the new stamp.

`KeepsStamp` is the condition on a build under which that does not happen.  It
is exact: the stamp is honest all along a run if and only if every build of the
run meets it (`honest_iff_keepsStamp`).
-/
import ReSchema.CorpusManifest

namespace ReSchema

open Py

/-! ### The version that an entry is of -/

/-- The build has a slot under the task id. -/
def BuildCall.covers (call : BuildCall) (taskId : PyStr) : Prop :=
  taskId ∈ call.plan.map Slot.taskId

instance (call : BuildCall) (taskId : PyStr) : Decidable (call.covers taskId) :=
  inferInstanceAs (Decidable (_ ∈ _))

/-- The version of the code that last built the task. -/
def lastVersion (calls : List BuildCall) (taskId : PyStr) : Option PyStr :=
  (calls.reverse.find? fun call => call.covers taskId).map fun call => call.code.version

/-- A manifest that gets loaded under a version has only entries that were last built under it. -/
def Honest (calls : List BuildCall) (root : Root) : Prop :=
  ∀ version entries, loadManifest version root = .ok entries →
    ∀ e ∈ entries, lastVersion calls e.taskId = some version

/-- A build that does not put its stamp on entries of another version: it builds nothing, or it is
a full build, or the stamp is its own already, or nothing is left of the manifest. -/
def KeepsStamp (call : BuildCall) (root : Root) : Prop :=
  call.plan = [] ∨ call.filters.targeted = false ∨ root.stamp = some call.code.version ∨
    ∀ e ∈ root.manifest.getD [], call.covers e.taskId

theorem lastVersion_snoc (calls : List BuildCall) (call : BuildCall) (taskId : PyStr) :
    lastVersion (calls ++ [call]) taskId =
      if call.covers taskId then some call.code.version else lastVersion calls taskId := by
  rw [lastVersion, List.reverse_append, List.reverse_singleton, List.singleton_append,
    List.find?_cons]
  by_cases h : call.covers taskId
  · rw [if_pos h, decide_eq_true h]
    rfl
  · rw [if_neg h, decide_eq_false h]
    rfl

/-! ### Runs and their prefixes -/

/-- A run determines its root. -/
theorem Builds.unique {calls : List BuildCall} {root root' : Root} (h : Builds calls root)
    (h' : Builds calls root') : root = root' := by
  induction h generalizing root' with
  | start =>
      generalize hcs : ([] : List BuildCall) = cs at h'
      cases h' with
      | start => rfl
      | step call run ok => exact absurd hcs (by simp)
  | @step calls root₀ root₁ entries call run ok ih =>
      generalize hcs : calls ++ [call] = cs at h'
      cases h' with
      | start => exact absurd hcs (by simp)
      | step call' run' ok' =>
          obtain ⟨rfl, hcall⟩ := List.append_inj' hcs rfl
          obtain rfl := List.singleton_inj.mp hcall
          rw [ih run', ok', Prod.mk.injEq] at ok
          exact ok.1.symm

/-- The root of a corpus has a stamp if it has a manifest. -/
theorem Builds.stamped {calls : List BuildCall} {root : Root} (h : Builds calls root)
    {entries : List Entry} (hm : root.manifest = some entries) :
    ∃ version, root.stamp = some version := by
  induction h generalizing entries with
  | start => cases hm
  | step call run ok ih =>
      by_cases hplan : call.plan = []
      · rw [build_empty _ _ hplan, Prod.mk.injEq] at ok
        rw [← ok.1] at hm ⊢
        exact ih hm
      · exact ⟨_, (build_ok ok hplan).stamp⟩

/-! ### One build -/

section Step

variable {calls : List BuildCall} {call : BuildCall} {root root' : Root} {built : List Entry}

/-- What a build has in its manifest: entries that it built, and for a targeted build those of the
old manifest. -/
theorem BuildOk.mem_manifest (h : BuildOk call.code call.container call.filters root root' built)
    {M : List Entry} (hM : root'.manifest = some M) {e : Entry} (he : e ∈ M) :
    call.covers e.taskId ∨
      call.filters.targeted = true ∧ ∃ old, root.manifest = some old ∧ e ∈ old := by
  obtain ⟨M', hM', hsort⟩ := h.manifest
  rw [hM, Option.some.injEq] at hM'
  subst hM'
  obtain ⟨p, hp, rfl⟩ := List.mem_map.mp ((sortEntries_perm hsort).mem_iff.mp he)
  rcases Dict.mem_update hp with hold | hnew
  · -- an entry that the build started from
    right
    rw [oldManifest.eq_def] at hold
    rcases ht : call.filters.targeted with - | -
    · simp [ht] at hold
    · rcases hr : root.manifest with - | old
      · simp [ht, hr] at hold
      · simp only [ht, hr] at hold
        obtain ⟨f, hf, rfl⟩ := List.mem_map.mp ((Dict.mem_update hold).resolve_left List.not_mem_nil)
        exact ⟨rfl, old, rfl, hf⟩
  · -- an entry of its own
    left
    obtain ⟨f, hf, rfl⟩ := List.mem_map.mp hnew
    obtain ⟨s, hs, image, -, rfl⟩ := related_left h.entries hf
    exact List.mem_map_of_mem hs

/-- A targeted build drops no task from the manifest. -/
theorem BuildOk.keeps_task (h : BuildOk call.code call.container call.filters root root' built)
    (ht : call.filters.targeted = true) {old M : List Entry} (hold : root.manifest = some old)
    (hM : root'.manifest = some M) {e : Entry} (he : e ∈ old) :
    ∃ e' ∈ M, e'.taskId = e.taskId := by
  obtain ⟨M', hM', hsort⟩ := h.manifest
  rw [hM, Option.some.injEq] at hM'
  subst hM'
  have hstart : oldManifest call.filters root =
      Dict.update [] (old.map fun e => (e.taskId, e)) := by
    rw [oldManifest.eq_def, ht, hold]
  have hself : ∀ p ∈ Dict.update (oldManifest call.filters root)
      (built.map fun e => (e.taskId, e)), p.1 = p.2.taskId := by
    intro p hp
    rcases Dict.mem_update hp with hp | hp
    · rw [hstart] at hp
      obtain ⟨f, -, rfl⟩ := List.mem_map.mp ((Dict.mem_update hp).resolve_left List.not_mem_nil)
      rfl
    · obtain ⟨f, -, rfl⟩ := List.mem_map.mp hp
      rfl
  have hkey : e.taskId ∈ (Dict.update (oldManifest call.filters root)
      (built.map fun e => (e.taskId, e))).keys := by
    rw [Dict.mem_keys_update, hstart, Dict.mem_keys_update]
    exact .inl (.inr (List.mem_map.mpr ⟨_, List.mem_map_of_mem he, rfl⟩))
  obtain ⟨p, hp, hpe⟩ := List.mem_map.mp hkey
  refine ⟨p.2, (sortEntries_perm hsort).mem_iff.mpr (List.mem_map_of_mem hp), ?_⟩
  rw [← hself p hp, hpe]

theorem honest_of_plan_nil (hplan : call.plan = []) :
    Honest (calls ++ [call]) root ↔ Honest calls root := by
  have hnone : ∀ taskId, ¬ call.covers taskId := by
    intro taskId
    rw [BuildCall.covers, hplan]
    exact List.not_mem_nil
  have hlast : lastVersion (calls ++ [call]) = lastVersion calls := by
    funext taskId
    rw [lastVersion_snoc, if_neg (hnone taskId)]
  rw [Honest, Honest, hlast]

/-- **One build.**  From an honest stamp a build comes to an honest stamp if and only if it keeps
it. -/
theorem honest_step (hrun : Builds calls root)
    (ok : build call.code call.container call.filters root = (root', .ok built))
    (hhonest : Honest calls root) :
    Honest (calls ++ [call]) root' ↔ KeepsStamp call root := by
  by_cases hplan : call.plan = []
  · rw [build_empty _ _ hplan, Prod.mk.injEq] at ok
    rw [honest_of_plan_nil hplan, ← ok.1]
    exact iff_of_true hhonest (.inl hplan)
  have hok := build_ok ok hplan
  obtain ⟨M, hM, -⟩ := hok.manifest
  have hload : loadManifest call.code.version root' = .ok M :=
    loadManifest_ok.mpr ⟨by rw [hok.stamp, Option.getD_some], hM⟩
  constructor
  · intro hafter
    rw [KeepsStamp, or_iff_not_imp_left]
    refine fun _ => or_iff_not_imp_left.mpr fun ht => or_iff_not_imp_left.mpr fun hstamp => ?_
    rw [Bool.not_eq_false] at ht
    by_contra! hleft
    obtain ⟨e, he, hcov⟩ := hleft
    rcases hold : root.manifest with - | old
    · simp [hold] at he
    rw [hold, Option.getD_some] at he
    -- the entry is of the old version before the build and still after it
    obtain ⟨version, hversion⟩ := hrun.stamped hold
    have hbefore : lastVersion calls e.taskId = some version :=
      hhonest version old (loadManifest_ok.mpr ⟨by rw [hversion, Option.getD_some], hold⟩) e he
    obtain ⟨e', he', htask⟩ := hok.keeps_task ht hold hM he
    have hnow := hafter call.code.version M hload e' he'
    rw [htask, lastVersion_snoc, if_neg hcov, hbefore] at hnow
    exact hstamp (hversion.trans hnow)
  · intro hkeeps version entries hentries e he
    obtain ⟨hstamp, hmanifest⟩ := loadManifest_ok.mp hentries
    rw [hok.stamp, Option.getD_some] at hstamp
    subst hstamp
    rw [lastVersion_snoc]
    by_cases hcov : call.covers e.taskId
    · rw [if_pos hcov]
    rw [if_neg hcov]
    obtain ⟨ht, old, hold, heold⟩ := (hok.mem_manifest hmanifest he).resolve_left hcov
    rcases hkeeps with h | h | h | h
    · exact absurd h hplan
    · rw [h] at ht
      cases ht
    · exact hhonest _ old (loadManifest_ok.mpr ⟨by rw [h, Option.getD_some], hold⟩) e heold
    · rw [hold] at h
      exact absurd (h e heold) hcov

end Step

/-! ### All builds -/

/-- **The stamp.**  Along a run of successful builds from an empty root, whatever manifest could be
loaded is of the version that loads it, if and only if every build keeps the stamp. -/
theorem honest_iff_keepsStamp {calls : List BuildCall} {root : Root} (hrun : Builds calls root) :
    (∀ before root', before <+: calls → Builds before root' → Honest before root') ↔
      ∀ before call root', before ++ [call] <+: calls → Builds before root' →
        KeepsStamp call root' := by
  induction hrun with
  | start =>
      refine iff_of_true ?_ ?_
      · intro before root' hpre hbefore
        rw [List.prefix_nil] at hpre
        subst hpre
        rw [hbefore.unique .start]
        exact fun version entries h => absurd (loadManifest_ok.mp h).2 (by simp [Root.empty])
      · intro before call root' hpre
        exact absurd (List.prefix_nil.mp hpre) (by simp)
  | @step calls root₀ root₁ built call run ok ih =>
      have hlast : Builds (calls ++ [call]) root₁ := .step call run ok
      constructor
      · intro hall before call' root' hpre hbefore
        have hprev := fun b r (hb : b <+: calls) => hall b r (hb.trans (List.prefix_append _ _))
        rcases List.prefix_concat_iff.mp hpre with heq | hpre
        · -- the last build
          obtain ⟨rfl, hcall⟩ := List.append_inj' heq rfl
          obtain rfl := List.singleton_inj.mp hcall
          rw [hbefore.unique run]
          exact (honest_step run ok (hprev _ _ (List.prefix_refl _) run)).mp
            (hall _ _ (List.prefix_refl _) hlast)
        · exact ih.mp hprev before call' root' hpre hbefore
      · intro hall before root' hpre hbefore
        have hprev := ih.mpr fun b c r hb => hall b c r (hb.trans (List.prefix_append _ _))
        rcases List.prefix_concat_iff.mp hpre with rfl | hpre
        · rw [hbefore.unique hlast]
          exact (honest_step run ok (hprev _ _ (List.prefix_refl _) run)).mpr
            (hall _ _ _ (List.prefix_refl _) run)
        · exact hprev before root' hpre hbefore

/-- A variant by version 1.0 and another one by version 2.0. -/
def mixedCalls : List BuildCall :=
  [variantCall (py "1.0") (py "gcc-O2-sym"), variantCall (py "2.0") (py "gcc-O2-stripped")]

/-- The root after the first of them. -/
def olderRoot : Root := (variantCall (py "1.0") (py "gcc-O2-sym")).after .empty

/-- The root after both. -/
def mixedRoot : Root := (variantCall (py "2.0") (py "gcc-O2-stripped")).after olderRoot

theorem builds_older : Builds [variantCall (py "1.0") (py "gcc-O2-sym")] olderRoot := by
  have hok : (build ⟨py "1.0", [py "pkfmt"]⟩ soundContainer ⟨none, some [py "gcc-O2-sym"]⟩
      .empty).2 = .ok [variantEntry (py "gcc-O2-sym")] := by decide +kernel
  exact builds_variant _ _ hok .start

theorem builds_mixed : Builds mixedCalls mixedRoot := by
  have hok : (build ⟨py "2.0", [py "pkfmt"]⟩ soundContainer ⟨none, some [py "gcc-O2-stripped"]⟩
      olderRoot).2 = .ok [variantEntry (py "gcc-O2-stripped")] := by decide +kernel
  exact builds_variant _ _ hok builds_older

/-- The first build keeps the stamp. -/
theorem honest_iff_keepsStamp_older :
    Honest [variantCall (py "1.0") (py "gcc-O2-sym")] olderRoot := by
  refine (honest_iff_keepsStamp builds_older).mpr (fun before call root' hpre hbefore => ?_) _ _
    (List.prefix_refl _) builds_older
  have hnil : before = [] := by
    have := hpre.length_le
    simpa using this
  subst hnil
  rw [← Builds.start.unique hbefore]
  exact .inr (.inr (.inr fun e he => absurd he List.not_mem_nil))

/-- The second one puts its stamp on what the first one recorded. -/
theorem stamp_not_honest : ¬ ∀ calls root, Builds calls root → Honest calls root := by
  intro hall
  have hload : loadManifest (py "2.0") mixedRoot =
      .ok [variantEntry (py "gcc-O2-sym"), variantEntry (py "gcc-O2-stripped")] := by decide +kernel
  have hlast := hall mixedCalls mixedRoot builds_mixed _ _ hload _ List.mem_cons_self
  have hwas : lastVersion mixedCalls (variantEntry (py "gcc-O2-sym")).taskId = some (py "1.0") := by
    decide +kernel
  rw [hwas] at hlast
  exact absurd hlast (by decide)

end ReSchema
