/-
ReSchema/TargetedBuild.lean

What a targeted build does to the entries outside its scope.

A targeted build merges its entries into the manifest that is there and writes
the merged entries in the order of the matrix.  The order is that of a key which
is read off the task id, with the places of its parts in the current lists of
compilers, optimisation levels and variants (`slotSortKey`).  An entry of
another branch may have a task id with no key, and then the build raises, after
its binaries are in place.

  * `mem_merged`:       the merge keeps what it does not replace;
  * `sortEntries_iff`:  it can be written if and only if all task ids have keys;
  * `preserves_iff`:    when a targeted build does what it is for.
-/
import ReSchema.CorpusFailure

namespace ReSchema

open Py

/-! ### Merging -/

/-- The entries by their task ids. -/
def byTaskId (entries : List Entry) : Dict Entry := entries.map fun e => (e.taskId, e)

/-- The task ids of the entries. -/
def taskIds (entries : List Entry) : List PyStr := entries.map Entry.taskId

theorem keys_byTaskId (entries : List Entry) : (byTaskId entries).keys = taskIds entries := by
  rw [Dict.keys, byTaskId, List.map_map]
  rfl

theorem mem_byTaskId {entries : List Entry} {p : PyStr × Entry} :
    p ∈ byTaskId entries ↔ p.2 ∈ entries ∧ p.1 = p.2.taskId := by
  obtain ⟨k, e⟩ := p
  rw [byTaskId, List.mem_map]
  constructor
  · rintro ⟨f, hf, heq⟩
    cases heq
    exact ⟨hf, rfl⟩
  · rintro ⟨he, hk⟩
    exact ⟨e, he, Prod.ext hk.symm rfl⟩

section Merged

variable {old built : List Entry}

/-- The merged manifest: the new entries over the old ones. -/
def merged (old built : List Entry) : Dict Entry := Dict.update (byTaskId old) (byTaskId built)

theorem keys_merged (k : PyStr) :
    k ∈ (merged old built).keys ↔ k ∈ taskIds old ∨ k ∈ taskIds built := by
  rw [merged, Dict.mem_keys_update, keys_byTaskId, keys_byTaskId]

theorem merged_self {p : PyStr × Entry} (h : p ∈ merged old built) : p.1 = p.2.taskId :=
  (Dict.mem_update h).elim (fun h => (mem_byTaskId.mp h).2) fun h => (mem_byTaskId.mp h).2

theorem nodup_merged (hold : (taskIds old).Nodup) : (merged old built).keys.Nodup := by
  apply Dict.nodup_keys_update
  rwa [keys_byTaskId]

/-- The merge has the new entries, and the old ones that they do not replace. -/
theorem mem_merged (hold : (taskIds old).Nodup)
    (hbuilt : ∀ e ∈ built, ∀ f ∈ built, e.taskId = f.taskId → e = f) (e : Entry) :
    (e.taskId, e) ∈ merged old built ↔ e ∈ built ∨ e ∈ old ∧ e.taskId ∉ taskIds built := by
  have hlookup : (e.taskId, e) ∈ merged old built ↔
      (merged old built).lookup e.taskId = some e :=
    ⟨Dict.lookup_eq_some_of_mem (nodup_merged hold), Dict.mem_of_lookup_eq_some⟩
  rw [hlookup]
  by_cases hk : e.taskId ∈ taskIds built
  · -- replaced
    obtain ⟨f, hf, hfe⟩ := List.mem_map.mp hk
    have hnew : (merged old built).lookup e.taskId = some f := by
      apply Dict.lookup_update_of_mem
      · intro p hp hpk
        obtain ⟨hmem, hself⟩ := mem_byTaskId.mp hp
        exact hbuilt p.2 hmem f hf (by rw [← hself, hpk, hfe])
      · rwa [keys_byTaskId]
    rw [hnew, Option.some.injEq]
    constructor
    · rintro rfl
      exact .inl hf
    · rintro (he | ⟨-, hnot⟩)
      · exact hbuilt f hf e he hfe
      · exact absurd hk hnot
  · -- kept
    have hkept : (merged old built).lookup e.taskId = (byTaskId old).lookup e.taskId := by
      apply Dict.lookup_update_of_not_mem
      rwa [keys_byTaskId]
    have hmem : (byTaskId old).lookup e.taskId = some e ↔ e ∈ old := by
      constructor
      · exact fun h => (mem_byTaskId.mp (Dict.mem_of_lookup_eq_some h)).1
      · intro he
        apply Dict.lookup_eq_some_of_mem
        · rwa [keys_byTaskId]
        · exact mem_byTaskId.mpr ⟨he, rfl⟩
    rw [hkept, hmem]
    constructor
    · exact fun he => .inr ⟨he, hk⟩
    · rintro (he | ⟨he, -⟩)
      · exact absurd (List.mem_map_of_mem he) hk
      · exact he

end Merged

/-! ### Sorting -/

/-- The task id has the form `seed::cc-opt-variant`, with the parts after the seed in the lists of
the matrix. -/
def Sortable (taskId : PyStr) : Prop :=
  ∃ seed rest cc opt variant, splitText (py "::") taskId = [seed, rest] ∧
    splitText (py "-") rest = [cc, opt, variant] ∧
    cc ∈ compilers ∧ py "-" ++ opt ∈ opts ∧ variant ∈ variants

theorem exists_idxOf?_iff {x : PyStr} {l : List PyStr} : (∃ i, l.idxOf? x = some i) ↔ x ∈ l := by
  rw [← Option.isSome_iff_exists]
  simp

theorem sortable_iff {taskId : PyStr} : Sortable taskId ↔ ∃ key, slotSortKey taskId = some key := by
  constructor
  · rintro ⟨seed, rest, cc, opt, variant, htask, hrest, hcc, hopt, hvariant⟩
    obtain ⟨i, hi⟩ := exists_idxOf?_iff.mpr hcc
    obtain ⟨j, hj⟩ := exists_idxOf?_iff.mpr hopt
    obtain ⟨k, hk⟩ := exists_idxOf?_iff.mpr hvariant
    exact ⟨toLex (seed, toLex (i, toLex (j, k))), by simp [slotSortKey, htask, hrest, hi, hj, hk]⟩
  · rintro ⟨key, h⟩
    unfold slotSortKey at h
    split at h
    · rename_i seed rest htask
      split at h
      · rename_i cc opt variant hrest
        simp only [bind, Option.bind_eq_some_iff] at h
        obtain ⟨i, hi, j, hj, k, hk, -⟩ := h
        exact ⟨seed, rest, cc, opt, variant, htask, hrest, exists_idxOf?_iff.mp ⟨i, hi⟩,
          exists_idxOf?_iff.mp ⟨j, hj⟩, exists_idxOf?_iff.mp ⟨k, hk⟩⟩
      · cases h
    · cases h

/-- The entries can be sorted if and only if all their task ids can. -/
theorem sortEntries_iff {m : Dict Entry} :
    (∃ M, sortEntries m = .ok M) ↔ ∀ k ∈ m.keys, Sortable k := by
  constructor
  · rintro ⟨M, hM⟩ k hk
    obtain ⟨keyed, hrel, -⟩ := sortEntries_ok hM
    obtain ⟨p, hp, rfl⟩ := List.mem_map.mp hk
    obtain ⟨q, -, hq, -⟩ := related_right hrel hp
    exact sortable_iff.mpr ⟨q.1, hq⟩
  · intro hall
    have hkeys : ∀ p ∈ m, ∃ q, (slotSortKey p.1).map (fun k => (k, p.2)) = some q := by
      intro p hp
      obtain ⟨key, hkey⟩ := sortable_iff.mp (hall p.1 (List.mem_map_of_mem hp))
      exact ⟨(key, p.2), by rw [hkey]; rfl⟩
    obtain ⟨keyed, hkeyed⟩ := exists_mapM_some.mpr hkeys
    exact ⟨_, by rw [sortEntries, hkeyed]⟩

/-! ### Builds whose jobs succeed -/

/-- Every compile job and every strip job of the build succeeds, and both reports arrive. -/
structure JobsSucceed (code : Code) (c : Container) (flt : Filters) : Prop where
  compiled : ∀ s ∈ planOf code flt, ∃ image, c.compile s = .wrote image
  compileReported : planOf code flt ≠ [] → c.compileReported = true
  stripped : ∀ s ∈ planOf code flt, s.strip = true → c.strip s = .stripped
  stripReported : (planOf code flt).filter Slot.strip ≠ [] → c.stripReported = true

/-- The build does what a targeted build is for.  It does not raise, it builds the slots of its
plan, and the manifest afterwards has the entries built and the old ones of other task ids, and no
task id twice. -/
def Preserves (code : Code) (c : Container) (flt : Filters) (root : Root) : Prop :=
  ∃ root' built, build code c flt root = (root', .ok built) ∧
    taskIds built = (planOf code flt).map Slot.taskId ∧
    (taskIds (root'.manifest.getD [])).Nodup ∧
    ∀ e, e ∈ root'.manifest.getD [] ↔
      e ∈ built ∨ e ∈ root.manifest.getD [] ∧ e.taskId ∉ taskIds built

/-- The strips of a batch in which each succeeds. -/
theorem stripFiles_zero {c : Container} {plan : List Slot} {fs : Files}
    (h : ∀ s ∈ plan, c.strip s = .stripped) :
    ∃ rcs, (stripFiles c plan fs).2 = some rcs ∧ ∀ rc ∈ rcs, rc = 0 := by
  induction plan generalizing fs with
  | nil => exact ⟨[], rfl, fun rc hrc => absurd hrc List.not_mem_nil⟩
  | cons s plan ih =>
      obtain ⟨hs, hplan⟩ := List.forall_mem_cons.mp h
      obtain ⟨rcs, hrcs, hzero⟩ := @ih
        (fs.leave s.path (some ((fs s.path).map fun b => { b with stripped := true }))) hplan
      refine ⟨0 :: rcs, ?_, List.forall_mem_cons.mpr ⟨rfl, hzero⟩⟩
      simp only [stripFiles, hs, hrcs, Option.map_some]

section Build

variable {code : Code} {c : Container} {flt : Filters} {root : Root}

theorem oldManifest_targeted (h : flt.targeted = true)
    (hold : (taskIds (root.manifest.getD [])).Nodup) :
    oldManifest flt root = byTaskId (root.manifest.getD []) := by
  rw [oldManifest, h]
  rcases hm : root.manifest with - | entries
  · rfl
  · rw [hm] at hold
    apply Dict.update_nil
    rw [← keys_byTaskId] at hold
    exact hold

/-- A build whose jobs succeed comes to the manifest once its entries can be read. -/
theorem build_merged (hjobs : JobsSucceed code c flt) (hplan : planOf code flt ≠ [])
    (htargeted : flt.targeted = true) (hold : (taskIds (root.manifest.getD [])).Nodup)
    (hreach : reachesStrip code c flt = true) :
    ∃ files built, taskIds built = (planOf code flt).map Slot.taskId ∧
      build code c flt root =
        match sortEntries (merged (root.manifest.getD []) built) with
        | .error err => ({ root with files := files }, .error err)
        | .ok manifest => (⟨files, some manifest, some code.version⟩, .ok built) := by
  obtain ⟨hcheck, built, hbuilt⟩ := (@reachesStrip_iff code c flt root.files).mp hreach
  -- without slots to strip there is no second round, and with them it succeeds
  have hround : ∃ files, (if (planOf code flt).filter Slot.strip = [] then
      ((compileJobs c (planOf code flt) root.files).1, Except.ok ()) else
      ((stripFiles c ((planOf code flt).filter Slot.strip)
          (compileJobs c (planOf code flt) root.files).1).1,
        checkRound .stripFault .stripFailed c.stripReported
          (stripFiles c ((planOf code flt).filter Slot.strip)
            (compileJobs c (planOf code flt) root.files).1).2)) = (files, .ok ()) := by
    by_cases hnil : (planOf code flt).filter Slot.strip = []
    · exact ⟨_, if_pos hnil⟩
    · rw [if_neg hnil]
      have hstrips : ∀ s ∈ (planOf code flt).filter Slot.strip, c.strip s = .stripped := by
        intro s hs
        exact hjobs.stripped s (List.mem_of_mem_filter hs) (List.mem_filter.mp hs).2
      refine ⟨_, Prod.ext rfl ?_⟩
      exact checkRound_ok_iff.mpr ⟨hjobs.stripReported hnil, stripFiles_zero hstrips⟩
  obtain ⟨files, hfiles⟩ := hround
  refine ⟨files, built, ?_, ?_⟩
  · refine (related_map (mapM_ok.mp hbuilt) fun s e hse => ?_).symm
    obtain ⟨-, b, -, rfl⟩ := entryOf_ok hse
    rfl
  · rw [build]
    simp only [if_neg hplan, hcheck, hbuilt, hfiles, oldManifest_targeted htargeted hold]
    rfl

theorem reachesStrip_of_build (hplan : planOf code flt ≠ []) {root' : Root}
    {built : List Entry} (h : build code c flt root = (root', .ok built)) :
    reachesStrip code c flt = true := by
  apply (@reachesStrip_iff code c flt root.files).mpr
  rw [build] at h
  simp only [if_neg hplan] at h
  rcases hcheck : checkRound .compileFault .compileFailed c.compileReported
    (compileJobs c (planOf code flt) root.files).2 with err | ⟨⟩
  · simp [hcheck] at h
  refine ⟨rfl, ?_⟩
  rcases hmap : (planOf code flt).mapM (entryOf (compileJobs c (planOf code flt) root.files).1)
    with err | built'
  · simp [hcheck, hmap] at h
  · exact ⟨built', rfl⟩

/-- The entries of a build that comes through are those of its slots. -/
theorem taskIds_built {root' : Root} {built : List Entry}
    (h : BuildOk code c flt root root' built) :
    taskIds built = (planOf code flt).map Slot.taskId := by
  refine (related_map h.entries fun s e hse => ?_).symm
  obtain ⟨image, -, rfl⟩ := hse
  rfl

/-- Two of them with one task id are the same. -/
theorem built_unique {root' : Root} {built : List Entry}
    (h : BuildOk code c flt root root' built) :
    ∀ e ∈ built, ∀ f ∈ built, e.taskId = f.taskId → e = f := by
  intro e he f hf hef
  obtain ⟨s, hs, image, hc, rfl⟩ := related_left h.entries he
  obtain ⟨t, ht, image', hc', rfl⟩ := related_left h.entries hf
  obtain rfl := (h.known s hs).eq_of_taskId (h.known t ht) hef
  rw [hc, CompileOutcome.wrote.injEq] at hc'
  rw [hc']

/-- The slots of a build that reads its entries are slots of the matrix. -/
theorem known_of_reachesStrip (h : reachesStrip code c flt = true) {s : Slot}
    (hs : s ∈ planOf code flt) : s.Known := by
  obtain ⟨-, hall⟩ := Bool.and_eq_true_iff.mp h
  obtain ⟨image, names, -, hnames, -⟩ :=
    CompileOutcome.captures_iff.mp (List.all_eq_true.mp hall s hs)
  have hslot := mem_slots.mp (mem_planOf.mp hs).1
  exact ⟨List.mem_map_of_mem (f := Prod.fst) (Dict.mem_of_lookup_eq_some hnames), hslot.2.1,
    hslot.2.2⟩

/-- What a targeted build that comes through writes. -/
theorem build_preserves (hplan : planOf code flt ≠ []) (htargeted : flt.targeted = true)
    (hold : (taskIds (root.manifest.getD [])).Nodup) {root' : Root} {built : List Entry}
    (h : build code c flt root = (root', .ok built)) : Preserves code c flt root := by
  have hok := build_ok h hplan
  obtain ⟨M, hM, hsort⟩ := hok.manifest
  rw [oldManifest_targeted htargeted hold] at hsort
  have hperm : M.Perm ((merged (root.manifest.getD []) built).map Prod.snd) :=
    sortEntries_perm hsort
  refine ⟨root', built, h, taskIds_built hok, ?_, ?_⟩
  · -- no task id twice
    have hids : ((merged (root.manifest.getD []) built).map Prod.snd).map Entry.taskId =
        (merged (root.manifest.getD []) built).keys := by
      rw [List.map_map, Dict.keys]
      exact List.map_congr_left fun p hp => (merged_self hp).symm
    rw [hM, Option.getD_some, taskIds, (hperm.map Entry.taskId).nodup_iff, hids]
    exact nodup_merged hold
  · -- the entries
    intro e
    rw [hM, Option.getD_some, hperm.mem_iff, ← mem_merged hold (built_unique hok), List.mem_map]
    constructor
    · rintro ⟨⟨k, f⟩, hp, rfl⟩
      have hself : k = f.taskId := merged_self hp
      rwa [← hself]
    · exact fun he => ⟨_, he, rfl⟩

end Build

/-- **Frame of a targeted build.**  A targeted build whose jobs succeed keeps what is outside its
scope if and only if there is nothing to build, or each binary has some of the functions of a seed
that is known, and each old entry outside the scope has a task id of the form that the current
matrix has. -/
theorem preserves_iff {code : Code} {c : Container} {flt : Filters} {root : Root}
    (htargeted : flt.targeted = true) (hjobs : JobsSucceed code c flt)
    (hold : (taskIds (root.manifest.getD [])).Nodup) :
    Preserves code c flt root ↔ planOf code flt = [] ∨
      (∀ s ∈ planOf code flt, (c.compile s).captures s.seed = true) ∧
      ∀ e ∈ root.manifest.getD [], e.taskId ∉ (planOf code flt).map Slot.taskId →
        Sortable e.taskId := by
  by_cases hplan : planOf code flt = []
  · -- nothing to build
    refine iff_of_true ⟨root, [], build_empty c root hplan, by rw [hplan]; rfl, hold, ?_⟩ (.inl hplan)
    intro e
    simp [taskIds]
  simp only [hplan, false_or]
  have hreach_iff : reachesStrip code c flt = true ↔
      ∀ s ∈ planOf code flt, (c.compile s).captures s.seed = true := by
    rw [reachesStrip, hjobs.compileReported hplan, Bool.true_and, List.all_eq_true]
  rw [← hreach_iff]
  constructor
  · rintro ⟨root', built, h, -⟩
    refine ⟨reachesStrip_of_build hplan h, fun e he hout => ?_⟩
    obtain ⟨M, -, hsort⟩ := (build_ok h hplan).manifest
    rw [oldManifest_targeted htargeted hold] at hsort
    refine sortEntries_iff.mp ⟨M, hsort⟩ e.taskId ?_
    exact (keys_merged _).mpr (.inl (List.mem_map_of_mem he))
  · rintro ⟨hreach, hsortable⟩
    obtain ⟨files, built, hids, hbuild⟩ := build_merged hjobs hplan htargeted hold hreach
    have hkeys : ∀ k ∈ (merged (root.manifest.getD []) built).keys, Sortable k := by
      have hplanned : ∀ k ∈ (planOf code flt).map Slot.taskId, Sortable k := by
        intro k hk
        obtain ⟨s, hs, rfl⟩ := List.mem_map.mp hk
        exact sortable_iff.mpr ⟨s.key, (known_of_reachesStrip hreach hs).sortKey⟩
      intro k hk
      rcases (keys_merged k).mp hk with hk | hk
      · by_cases hin : k ∈ (planOf code flt).map Slot.taskId
        · exact hplanned k hin
        · obtain ⟨e, he, rfl⟩ := List.mem_map.mp hk
          exact hsortable e he hin
      · exact hplanned k (hids ▸ hk)
    obtain ⟨M, hM⟩ := sortEntries_iff.mpr hkeys
    apply build_preserves hplan htargeted hold
    rw [hbuild, hM]

/-- The manifest of a branch that has one more compiler. -/
def otherBranchRoot : Root :=
  ⟨fun _ => none, some [⟨py "ghost", py "icc", py "-O2", false, py "ghost/icc-O2-sym/prog",
    py "ghost::icc-O2-sym", [(py "main", 0x401000, 32)]⟩], some (py "2.1")⟩

theorem jobsSucceed_variant (version variant : PyStr) :
    JobsSucceed ⟨version, [py "pkfmt"]⟩ soundContainer ⟨none, some [variant]⟩ :=
  ⟨fun _ _ => ⟨_, rfl⟩, fun _ => rfl, fun _ _ _ => rfl, fun _ => rfl⟩

theorem preserves_iff_variant :
    Preserves ⟨py "2.1", [py "pkfmt"]⟩ soundContainer ⟨none, some [py "gcc-O2-sym"]⟩
        otherBranchRoot ↔
      planOf ⟨py "2.1", [py "pkfmt"]⟩ ⟨none, some [py "gcc-O2-sym"]⟩ = [] ∨
      (∀ s ∈ planOf ⟨py "2.1", [py "pkfmt"]⟩ ⟨none, some [py "gcc-O2-sym"]⟩,
        (soundContainer.compile s).captures s.seed = true) ∧
      ∀ e ∈ otherBranchRoot.manifest.getD [], e.taskId ∉
          (planOf ⟨py "2.1", [py "pkfmt"]⟩ ⟨none, some [py "gcc-O2-sym"]⟩).map Slot.taskId →
        Sortable e.taskId :=
  preserves_iff rfl (jobsSucceed_variant _ _) (by decide)

/-- A build of one variant over it raises. -/
theorem targeted_build_raises : ¬ ∀ (code : Code) (c : Container) (flt : Filters) (root : Root),
    flt.targeted = true → JobsSucceed code c flt → (taskIds (root.manifest.getD [])).Nodup →
      Preserves code c flt root := by
  intro hall
  obtain ⟨root', built, h, -⟩ := hall ⟨py "2.1", [py "pkfmt"]⟩ soundContainer
    ⟨none, some [py "gcc-O2-sym"]⟩ otherBranchRoot rfl (jobsSucceed_variant _ _) (by decide)
  have hraises : (build ⟨py "2.1", [py "pkfmt"]⟩ soundContainer ⟨none, some [py "gcc-O2-sym"]⟩
      otherBranchRoot).2 = .error .unsortable := by
    decide +kernel
  rw [h] at hraises
  cases hraises

end ReSchema
