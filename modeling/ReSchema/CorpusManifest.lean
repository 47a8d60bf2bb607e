/-
ReSchema/CorpusManifest.lean

Targeted builds converge to the full build.

When compiling a slot gives the same image every time, the manifest after any
successful builds is a function of the slots built so far (`ManifestOf`): it
has their entries, strictly in the order of the matrix.  A strictly sorted list
is known from its members, so neither the order of the builds nor the way in
which they share the slots matters.
-/
import ReSchema.Corpus

namespace ReSchema

open Py

/-! ### Runs -/

/-- One build: the code that runs it, its container and its arguments. -/
structure BuildCall where
  code : Code
  container : Container
  filters : Filters

/-- The slots that a build is for. -/
def BuildCall.plan (call : BuildCall) : List Slot := planOf call.code call.filters

/-- Successful builds from an empty root, and the root they end with. -/
inductive Builds : List BuildCall → Root → Prop
  | start : Builds [] .empty
  | step {calls : List BuildCall} {root root' : Root} {built : List Entry} (call : BuildCall)
      (run : Builds calls root)
      (ok : build call.code call.container call.filters root = (root', .ok built)) :
      Builds (calls ++ [call]) root'

/-- Some of the builds was for the slot. -/
def BuiltIn (calls : List BuildCall) (s : Slot) : Prop := ∃ call ∈ calls, s ∈ call.plan

theorem builtIn_snoc {calls : List BuildCall} {call : BuildCall} {s : Slot} :
    BuiltIn (calls ++ [call]) s ↔ BuiltIn calls s ∨ s ∈ call.plan := by
  simp only [BuiltIn, List.mem_append, List.mem_singleton, or_and_right, exists_or, exists_eq_left]

/-- The builds are run by one code, and compiling a slot gives the same image in all of them. -/
structure Deterministic (code : Code) (img : Slot → Image) (calls : List BuildCall) : Prop where
  code_eq : ∀ call ∈ calls, call.code = code
  image_eq : ∀ call ∈ calls, ∀ s image, call.container.compile s = .wrote image → image = img s

/-! ### Sorted manifests -/

/-- The sort key of the first entry is below that of the second. -/
def KeyLt (e f : Entry) : Prop :=
  ∃ k l, slotSortKey e.taskId = some k ∧ slotSortKey f.taskId = some l ∧ k < l

instance : Std.Irrefl KeyLt := ⟨fun _ ⟨k, l, hk, hl, hlt⟩ => by
  rw [hk, Option.some.injEq] at hl
  exact absurd hlt (hl ▸ lt_irrefl k)⟩

instance : Std.Asymm KeyLt := ⟨fun _ _ ⟨k, l, hk, hl, hlt⟩ ⟨l', k', hl', hk', hlt'⟩ => by
  rw [hk, Option.some.injEq] at hk'
  rw [hl, Option.some.injEq] at hl'
  subst hk' hl'
  exact lt_asymm hlt hlt'⟩

/-- What sorting the entries goes through. -/
theorem sortEntries_ok {m : Dict Entry} {M : List Entry} (h : sortEntries m = .ok M) :
    ∃ keyed : List (SlotKey × Entry),
      List.Forall₂ (fun p q => slotSortKey p.1 = some q.1 ∧ p.2 = q.2) m keyed ∧
      M = (keyed.insertionSort fun p q => p.1 ≤ q.1).map Prod.snd := by
  unfold sortEntries at h
  rcases hm : m.mapM fun p => (slotSortKey p.1).map fun k => (k, p.2) with - | keyed
  · simp [hm] at h
  simp only [hm, Except.ok.injEq] at h
  refine ⟨keyed, (mapM_some.mp hm).imp fun p q hpq => ?_, h.symm⟩
  obtain ⟨k, hk, rfl⟩ := Option.map_eq_some_iff.mp hpq
  exact ⟨hk, rfl⟩

/-- Sorting keeps the entries. -/
theorem sortEntries_perm {m : Dict Entry} {M : List Entry} (h : sortEntries m = .ok M) :
    M.Perm (m.map Prod.snd) := by
  obtain ⟨keyed, hrel, rfl⟩ := sortEntries_ok h
  have hsnd : m.map Prod.snd = keyed.map Prod.snd := related_map hrel fun p q hpq => hpq.2
  rw [hsnd]
  exact (List.perm_insertionSort _ keyed).map Prod.snd

/-- Entries under distinct keys get sorted strictly. -/
theorem sortEntries_sorted {m : Dict Entry} {M : List Entry} (h : sortEntries m = .ok M)
    (hself : ∀ p ∈ m, p.1 = p.2.taskId) (hnodup : m.keys.Nodup)
    (hinj : ∀ k ∈ m.keys, ∀ l ∈ m.keys, slotSortKey k = slotSortKey l → k = l) :
    M.Pairwise KeyLt := by
  obtain ⟨keyed, hrel, rfl⟩ := sortEntries_ok h
  have hperm := List.perm_insertionSort (fun p q : SlotKey × Entry => p.1 ≤ q.1) keyed
  have hdistinct : (keyed.map Prod.fst).Nodup := by
    have hmap : m.keys.map slotSortKey = (keyed.map Prod.fst).map some := by
      rw [Dict.keys, List.map_map, List.map_map]
      exact related_map hrel fun p q hpq => hpq.1
    exact List.Nodup.of_map some (hmap ▸ hnodup.map_on fun k hk l hl => hinj k hk l hl)
  have : Std.Total fun p q : SlotKey × Entry => p.1 ≤ q.1 := ⟨fun p q => le_total p.1 q.1⟩
  have : IsTrans (SlotKey × Entry) fun p q => p.1 ≤ q.1 := ⟨fun _ _ _ => le_trans⟩
  have hle := List.pairwise_insertionSort (fun p q : SlotKey × Entry => p.1 ≤ q.1) keyed
  have hne : (keyed.insertionSort fun p q => p.1 ≤ q.1).Pairwise fun p q => p.1 ≠ q.1 :=
    List.pairwise_map.mp ((hperm.map Prod.fst).nodup_iff.mpr hdistinct)
  rw [List.pairwise_map]
  refine (hle.and hne).imp_of_mem fun {p q} hp hq hpq => ?_
  obtain ⟨p', hp', hkp, hp2⟩ := related_left hrel (hperm.mem_iff.mp hp)
  obtain ⟨q', hq', hkq, hq2⟩ := related_left hrel (hperm.mem_iff.mp hq)
  rw [hself p' hp', hp2] at hkp
  rw [hself q' hq', hq2] at hkq
  exact ⟨p.1, q.1, hkp, hkq, lt_of_le_of_ne hpq.1 hpq.2⟩

/-- The manifest of some slots: their entries, in the order of the matrix. -/
structure ManifestOf (img : Slot → Image) (built : Slot → Prop) (M : List Entry) : Prop where
  known : ∀ s, built s → s.Known
  sorted : M.Pairwise KeyLt
  mem : ∀ e, e ∈ M ↔ ∃ s, built s ∧ e = imageEntry s (img s)

theorem ManifestOf.unique {img : Slot → Image} {built built' : Slot → Prop} {M M' : List Entry}
    (h : ManifestOf img built M) (h' : ManifestOf img built' M') (hsame : ∀ s, built s ↔ built' s) :
    M = M' := by
  refine List.Pairwise.eq_of_mem_iff h.sorted h'.sorted fun e => ?_
  rw [h.mem, h'.mem]
  exact exists_congr fun s => and_congr_left fun _ => hsame s

theorem ManifestOf.nil (img : Slot → Image) {built : Slot → Prop} (h : ∀ s, ¬ built s) :
    ManifestOf img built [] where
  known := fun s hs => absurd hs (h s)
  sorted := .nil
  mem := fun _ => iff_of_false List.not_mem_nil fun ⟨s, hs, _⟩ => h s hs

/-! ### One build -/

section Step

variable {code : Code} {img : Slot → Image} {c : Container} {flt : Filters} {root root' : Root}
  {entries : List Entry} {built : Slot → Prop} {M : List Entry}

theorem planOf_full (h : flt.targeted = false) : planOf code flt = code.slots := by
  simp only [Filters.targeted, Bool.or_eq_false_iff, Option.isSome_eq_false_iff,
    Option.isNone_iff_eq_none] at h
  rw [planOf, h.1, h.2]
  exact List.filter_eq_self.mpr fun _ _ => rfl

/-- The entries that a build starts from are those of slots built before. -/
theorem oldManifest_spec (flt : Filters) (hM : ManifestOf img built M) (hroot : root.manifest.getD [] = M) :
    (∀ p ∈ oldManifest flt root, ∃ s, built s ∧ p = (s.taskId, imageEntry s (img s))) ∧
      (oldManifest flt root).keys.Nodup ∧
      (flt.targeted = true → ∀ s, built s → s.taskId ∈ (oldManifest flt root).keys) := by
  unfold oldManifest
  rcases hr : root.manifest with - | old
  · rw [hr] at hroot
    have hnil : M = [] := hroot.symm
    have hnone : ∀ s, ¬ built s := fun s hs => by
      have := (hM.mem _).mpr ⟨s, hs, rfl⟩
      rw [hnil] at this
      exact absurd this List.not_mem_nil
    cases flt.targeted
    all_goals exact ⟨fun p hp => absurd hp List.not_mem_nil, List.nodup_nil,
      fun _ s hs => absurd hs (hnone s)⟩
  · rw [hr] at hroot
    obtain rfl : old = M := hroot
    -- a full build forgets the old entries, a targeted one keeps them
    cases flt.targeted with
    | false =>
        exact ⟨fun p hp => absurd hp List.not_mem_nil, List.nodup_nil,
          fun h => absurd h Bool.false_ne_true⟩
    | true =>
        refine ⟨fun p hp => ?_, Dict.nodup_keys_update (d := []) List.nodup_nil _,
          fun _ s hs => ?_⟩
        · obtain ⟨e, he, rfl⟩ := List.mem_map.mp
            ((Dict.mem_update hp).resolve_left List.not_mem_nil)
          obtain ⟨s, hs, rfl⟩ := (hM.mem e).mp he
          exact ⟨s, hs, rfl⟩
        · rw [Dict.mem_keys_update]
          refine .inr (List.mem_map.mpr ⟨_, List.mem_map_of_mem ((hM.mem _).mpr ⟨s, hs, rfl⟩), rfl⟩)

/-- A build adds its slots to the manifest. -/
theorem build_manifest (h : BuildOk code c flt root root' entries)
    (himg : ∀ s image, c.compile s = .wrote image → image = img s)
    (hM : ManifestOf img built M) (hroot : root.manifest.getD [] = M)
    (hslots : ∀ s, built s → s ∈ code.slots) :
    ∃ M', root'.manifest = some M' ∧
      ManifestOf img (fun s => built s ∨ s ∈ planOf code flt) M' := by
  obtain ⟨hmem, hnodup, hkeys⟩ := oldManifest_spec flt hM hroot
  obtain ⟨M', hM', hsort⟩ := h.manifest
  have hknown : ∀ s, built s ∨ s ∈ planOf code flt → s.Known :=
    fun s hs => hs.elim (hM.known s) (h.known s)
  set D := Dict.update (oldManifest flt root) (entries.map fun e => (e.taskId, e)) with hD
  -- the dictionary before the sort: what is in it, then what it has a key for
  have hDmem : ∀ p ∈ D, ∃ s, (built s ∨ s ∈ planOf code flt) ∧
      p = (s.taskId, imageEntry s (img s)) := by
    intro p hp
    rcases Dict.mem_update hp with hp | hp
    · obtain ⟨s, hs, rfl⟩ := hmem p hp
      exact ⟨s, .inl hs, rfl⟩
    · obtain ⟨e, he, rfl⟩ := List.mem_map.mp hp
      obtain ⟨s, hs, image, hc, rfl⟩ := related_left h.entries he
      obtain rfl := himg s image hc
      exact ⟨s, .inr hs, rfl⟩
  have hDkeys : ∀ s, built s ∨ s ∈ planOf code flt → s.taskId ∈ D.keys := by
    have hplan : ∀ s ∈ planOf code flt, s.taskId ∈ D.keys := by
      intro s hs
      obtain ⟨e, he, image, hc, rfl⟩ := related_right h.entries hs
      rw [hD, Dict.mem_keys_update]
      exact .inr (List.mem_map.mpr ⟨_, List.mem_map_of_mem he, rfl⟩)
    rintro s (hs | hs)
    · cases ht : flt.targeted with
      | true =>
          rw [hD, Dict.mem_keys_update]
          exact .inl (hkeys ht s hs)
      | false => exact hplan s (planOf_full ht ▸ hslots s hs)
    · exact hplan s hs
  -- all keys are task ids of known slots, which is why the sort does not fail
  have hslot : ∀ k ∈ D.keys, ∃ s : Slot, s.Known ∧ k = s.taskId := by
    intro k hk
    obtain ⟨p, hp, rfl⟩ := List.mem_map.mp hk
    obtain ⟨s, hs, rfl⟩ := hDmem p hp
    exact ⟨s, hknown s hs, rfl⟩
  have hsorted := sortEntries_sorted hsort
    (fun p hp => by
      obtain ⟨s, -, rfl⟩ := hDmem p hp
      rfl)
    (Dict.nodup_keys_update hnodup _)
    (fun k hk l hl hkl => by
      obtain ⟨s, hs, rfl⟩ := hslot k hk
      obtain ⟨t, ht, rfl⟩ := hslot l hl
      rw [hs.sortKey, ht.sortKey, Option.some.injEq] at hkl
      rw [hs.eq_of_key hkl])
  refine ⟨M', hM', hknown, hsorted, fun e => ?_⟩
  rw [(sortEntries_perm hsort).mem_iff, List.mem_map]
  constructor
  · rintro ⟨p, hp, rfl⟩
    obtain ⟨s, hs, rfl⟩ := hDmem p hp
    exact ⟨s, hs, rfl⟩
  · rintro ⟨s, hs, rfl⟩
    obtain ⟨p, hp, hps⟩ := List.mem_map.mp (hDkeys s hs)
    obtain ⟨t, ht, rfl⟩ := hDmem p hp
    obtain rfl := (hknown t ht).eq_of_taskId (hknown s hs) hps
    exact ⟨_, hp, rfl⟩

end Step

/-! ### All builds -/

/-- After any successful builds there is the manifest of the slots built so far, and there is no
file as long as these are none. -/
theorem Builds.manifest_spec {code : Code} {img : Slot → Image} {calls : List BuildCall}
    {root : Root} (hrun : Builds calls root) (hdet : Deterministic code img calls) :
    ManifestOf img (BuiltIn calls) (root.manifest.getD []) ∧
      (root.manifest = none ↔ ∀ s, ¬ BuiltIn calls s) := by
  induction hrun with
  | start =>
      have hnone : ∀ s, ¬ BuiltIn [] s := fun s ⟨call, hcall, _⟩ => absurd hcall List.not_mem_nil
      exact ⟨.nil img hnone, iff_of_true rfl hnone⟩
  | @step calls root root' entries call run ok ih =>
      obtain ⟨ih, hnone⟩ := ih ⟨fun d hd => hdet.code_eq d (List.mem_append_left _ hd),
        fun d hd => hdet.image_eq d (List.mem_append_left _ hd)⟩
      have hlast : call ∈ calls ++ [call] := List.mem_append_right _ List.mem_cons_self
      have hiff : ∀ s, BuiltIn calls s ∨ s ∈ call.plan ↔ BuiltIn (calls ++ [call]) s :=
        fun s => builtIn_snoc.symm
      -- a build of nothing writes no manifest
      by_cases hplan : call.plan = []
      · rw [build_empty _ _ hplan, Prod.mk.injEq] at ok
        obtain ⟨rfl, -⟩ := ok
        have hsame : ∀ s, BuiltIn calls s ↔ BuiltIn (calls ++ [call]) s := by
          intro s
          rw [← hiff, hplan]
          simp
        have hfun : BuiltIn calls = BuiltIn (calls ++ [call]) :=
          funext fun s => propext (hsame s)
        rw [← hfun]
        exact ⟨ih, hnone⟩
      · have hok := build_ok ok hplan
        have hslots : ∀ s, BuiltIn calls s → s ∈ call.code.slots := by
          rintro s ⟨d, hd, hs⟩
          rw [hdet.code_eq call hlast, ← hdet.code_eq d (List.mem_append_left _ hd)]
          exact (mem_planOf.mp hs).1
        obtain ⟨M', hM', hmanifest⟩ := build_manifest hok (hdet.image_eq call hlast) ih rfl hslots
        have hfun : (fun s => BuiltIn calls s ∨ s ∈ planOf call.code call.filters) =
            BuiltIn (calls ++ [call]) := funext fun s => propext (hiff s)
        rw [hfun] at hmanifest
        refine ⟨by rwa [hM'], iff_of_false (by simp [hM']) fun h => hplan ?_⟩
        exact List.eq_nil_iff_forall_not_mem.mpr fun s hs => h s ((hiff s).mp (.inr hs))

/-- Two runs that have built the same slots have the same manifest. -/
theorem Builds.manifest_eq {code : Code} {img : Slot → Image} {calls calls' : List BuildCall}
    {root root' : Root} (hrun : Builds calls root) (hrun' : Builds calls' root')
    (hdet : Deterministic code img calls) (hdet' : Deterministic code img calls')
    (hsame : ∀ s, BuiltIn calls s ↔ BuiltIn calls' s) : root.manifest = root'.manifest := by
  obtain ⟨hM, hnone⟩ := hrun.manifest_spec hdet
  obtain ⟨hM', hnone'⟩ := hrun'.manifest_spec hdet'
  have heq := hM.unique hM' hsame
  have hfiles : root.manifest = none ↔ root'.manifest = none := by
    rw [hnone, hnone']
    exact forall_congr' fun s => not_congr (hsame s)
  rcases hr : root.manifest with - | M
  · exact (hfiles.mp hr).symm
  · rcases hr' : root'.manifest with - | M'
    · exact absurd (hfiles.mpr hr') (by simp [hr])
    · rw [hr, hr'] at heq
      exact congrArg some heq

/-- **Convergence.**  The manifest after successful builds is the strictly sorted list of the
entries of the slots built at least once.  The order of the builds does not matter, and when they
cover the matrix the manifest is that of one full build. -/
theorem builds_converge {code : Code} {img : Slot → Image} {calls : List BuildCall} {root : Root}
    (hrun : Builds calls root) (hdet : Deterministic code img calls) :
    (root.manifest.getD []).Pairwise KeyLt ∧
    (∀ e, e ∈ root.manifest.getD [] ↔ ∃ s, BuiltIn calls s ∧ e = imageEntry s (img s)) ∧
    (root.manifest = none ↔ ∀ s, ¬ BuiltIn calls s) ∧
    (∀ calls' root', Builds calls' root' → Deterministic code img calls' → calls.Perm calls' →
      root'.manifest = root.manifest) ∧
    (∀ call root', Builds [call] root' → Deterministic code img [call] →
      call.filters.targeted = false → (∀ s ∈ code.slots, BuiltIn calls s) →
      root'.manifest = root.manifest) := by
  obtain ⟨hM, hnone⟩ := hrun.manifest_spec hdet
  refine ⟨hM.sorted, hM.mem, hnone, ?_, ?_⟩
  · intro calls' root' hrun' hdet' hperm
    refine hrun'.manifest_eq hrun hdet' hdet fun s => ?_
    exact exists_congr fun call => and_congr_left fun _ => hperm.mem_iff.symm
  · intro call root' hrun' hdet' hfull hcover
    refine hrun'.manifest_eq hrun hdet' hdet fun s => ⟨?_, ?_⟩
    · rintro ⟨d, hd, hs⟩
      rw [List.mem_singleton.mp hd] at hs
      refine hcover s ?_
      rw [← hdet'.code_eq call List.mem_cons_self]
      exact (mem_planOf.mp hs).1
    · rintro ⟨d, hd, hs⟩
      refine ⟨call, List.mem_cons_self, ?_⟩
      rw [BuildCall.plan, planOf_full hfull, hdet'.code_eq call List.mem_cons_self,
        ← hdet.code_eq d hd]
      exact (mem_planOf.mp hs).1

/-- A container in which every command succeeds and every seed has the one function. -/
def soundContainer : Container where
  compile _ := .wrote ⟨[(py "pk_version_ok", 0x401000, 32)], []⟩
  compileReported := true
  strip _ := .stripped
  stripReported := true

/-- A targeted build of one variant of one seed, by a version of the code. -/
def variantCall (version variant : PyStr) : BuildCall where
  code := ⟨version, [py "pkfmt"]⟩
  container := soundContainer
  filters := ⟨none, some [variant]⟩

/-- What it builds. -/
def variantEntry (variant : PyStr) : Entry where
  seed := py "pkfmt"
  compiler := py "gcc"
  opt := py "-O2"
  stripped := variant = py "gcc-O2-stripped"
  binary := py "pkfmt/" ++ variant ++ py "/prog"
  taskId := py "pkfmt::" ++ variant
  functions := [(py "pk_version_ok", 0x401000, 32)]

/-- The root that a build leaves. -/
def BuildCall.after (call : BuildCall) (root : Root) : Root :=
  (build call.code call.container call.filters root).1

theorem builds_variant (version variant : PyStr) {root : Root} {entries : List Entry}
    (h : (build ⟨version, [py "pkfmt"]⟩ soundContainer ⟨none, some [variant]⟩ root).2 = .ok entries)
    {calls : List BuildCall} (hrun : Builds calls root) :
    Builds (calls ++ [variantCall version variant]) ((variantCall version variant).after root) :=
  .step (variantCall version variant) hrun (Prod.ext rfl h)

/-- A build of some variants, or of all. -/
def partCall (variants : Option (List PyStr)) : BuildCall where
  code := ⟨py "2.1", [py "pkfmt"]⟩
  container := soundContainer
  filters := ⟨none, variants⟩

/-- The variants of one compiler. -/
def variantsOf (compiler : PyStr) : List PyStr :=
  ((Code.slots ⟨py "2.1", [py "pkfmt"]⟩).filter fun s => s.compiler = compiler).map Slot.text

theorem builds_part (variants : Option (List PyStr)) {root : Root} {calls : List BuildCall}
    (hrun : Builds calls root)
    (h : (build ⟨py "2.1", [py "pkfmt"]⟩ soundContainer ⟨none, variants⟩ root).2.isOk = true) :
    Builds (calls ++ [partCall variants]) ((partCall variants).after root) := by
  rcases hok : (build ⟨py "2.1", [py "pkfmt"]⟩ soundContainer ⟨none, variants⟩ root).2
    with e | entries
  · rw [hok] at h
    cases h
  · exact .step (partCall variants) hrun (Prod.ext rfl hok)

theorem deterministic_parts {calls : List BuildCall}
    (h : ∀ call ∈ calls, ∃ variants, call = partCall variants) :
    Deterministic ⟨py "2.1", [py "pkfmt"]⟩
      (fun _ => ⟨[(py "pk_version_ok", 0x401000, 32)], []⟩) calls := by
  refine ⟨fun call hcall => ?_, fun call hcall => ?_⟩
  all_goals
    obtain ⟨variants, rfl⟩ := h call hcall
    simp [partCall, soundContainer]

/-- The variants of one compiler after those of the other one, in both orders, and all at once. -/
theorem builds_converge_halves :
    ((partCall (some (variantsOf (py "gcc")))).after
        ((partCall (some (variantsOf (py "clang")))).after .empty)).manifest =
      ((partCall (some (variantsOf (py "clang")))).after
        ((partCall (some (variantsOf (py "gcc")))).after .empty)).manifest ∧
    ((partCall none).after .empty).manifest =
      ((partCall (some (variantsOf (py "clang")))).after
        ((partCall (some (variantsOf (py "gcc")))).after .empty)).manifest := by
  have hgcc := builds_part (some (variantsOf (py "gcc"))) .start (by decide +kernel)
  have hclang := builds_part (some (variantsOf (py "clang"))) .start (by decide +kernel)
  have hboth := builds_part (some (variantsOf (py "clang"))) hgcc (by decide +kernel)
  have hboth' := builds_part (some (variantsOf (py "gcc"))) hclang (by decide +kernel)
  have hfull := builds_part none .start (by decide +kernel)
  obtain ⟨-, -, -, hperm, hcover⟩ := builds_converge hboth (deterministic_parts (by simp))
  refine ⟨hperm _ _ hboth' (deterministic_parts (by simp)) (List.Perm.swap _ _ []),
    hcover (partCall none) _ hfull (deterministic_parts (by simp)) rfl ?_⟩
  show ∀ s ∈ Code.slots ⟨py "2.1", [py "pkfmt"]⟩,
    ∃ call ∈ [partCall (some (variantsOf (py "gcc"))), partCall (some (variantsOf (py "clang")))],
      s ∈ call.plan
  decide +kernel

end ReSchema
