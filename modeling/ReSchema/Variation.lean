/-
ReSchema/Variation.lean

Differences of allocation between two runs.

A model whose C library allocates differently calls `brk` and `mmap` at other
times, reads in other pieces, opens other files for reading, and hands other
buffers to its writes.  `Variation` is the closure of these changes on an event
stream.  None of them shows in the view of the stream (`views_eq`): what
remains is the table of addresses, which the comparison keeps in the results.

`variation_accepted_iff` says that a run is accepted under every variation
exactly when no observable event of it has a result of 2^20 or more.
-/
import ReSchema.Observed
import ReSchema.Py.Interpreter

namespace ReSchema

open Py

/-! ### Variations -/

/-- Whether the stream ends inside an open call: the last entry into one has had no exit. -/
def insideOpen (evs : List Event) : Bool :=
  evs.foldl (fun b e =>
    if e.sc ∈ openFamily ∧ e.phase = py "enter" then true
    else if e.sc ∈ openFamily ∧ e.phase = py "exit" then false
    else b) false

/-- The event with another buffer, where it is a write and the buffer has an address. -/
def renameBuffer (σ : PyStr → PyStr) (e : Event) : Event :=
  if e.sc ∈ [py "write", py "writev"] then
    { e with args := e.args.modify 1 fun a => if isAddr a then σ a else a }
  else e

/-- The calls that allocate or read. -/
def silent : List PyStr := [py "brk", py "mmap", py "read"]

/-- A complete open for reading, around events that belong to no other open. -/
structure ReadOpen (enter exit : Event) (mid : List Event) : Prop where
  sc_enter : enter.sc ∈ openFamily
  sc_exit : exit.sc = enter.sc
  enter_phase : enter.phase = py "enter"
  exit_phase : exit.phase = py "exit"
  readOnly : writeIntent enter.sc enter.args = false
  mid_other : ∀ e ∈ mid, e.sc ∉ openFamily

/-- One change of a stream. -/
inductive Change : List Event → List Event → Prop
  | rename (σ : PyStr → PyStr) (inj : Function.Injective σ) (addr : ∀ a, isAddr a → isAddr (σ a))
      (evs : List Event) : Change evs (evs.map (renameBuffer σ))
  | insert (pre post : List Event) (e : Event) (h : e.sc ∈ silent) :
      Change (pre ++ post) (pre ++ e :: post)
  | delete (pre post : List Event) (e : Event) (h : e.sc ∈ silent) :
      Change (pre ++ e :: post) (pre ++ post)
  | insertOpen (pre mid post : List Event) (enter exit : Event) (h : ReadOpen enter exit mid)
      (hpre : insideOpen pre = false) :
      Change (pre ++ (mid ++ post)) (pre ++ enter :: (mid ++ exit :: post))
  | deleteOpen (pre mid post : List Event) (enter exit : Event) (h : ReadOpen enter exit mid)
      (hpre : insideOpen pre = false) :
      Change (pre ++ enter :: (mid ++ exit :: post)) (pre ++ (mid ++ post))

/-- Any number of changes. -/
def Variation : List Event → List Event → Prop := Relation.ReflTransGen Change

/-! ### One change does not show -/

theorem step_of_not_open {e : Event} (h : e.sc ∉ openFamily) (w : OpenWalk) : w.step e = w := by
  rw [OpenWalk.step, if_neg (fun h' => h h'.1), if_neg (fun h' => h h'.1)]

theorem openWalk_of_not_open {evs : List Event} (h : ∀ e ∈ evs, e.sc ∉ openFamily)
    (w : OpenWalk) : openWalk w evs = w := by
  induction evs with
  | nil => rfl
  | cons e evs ih =>
      obtain ⟨he, hevs⟩ := List.forall_mem_cons.mp h
      rw [openWalk, List.foldl_cons, step_of_not_open he]
      exact ih hevs

/-- Outside an open call no write intent is pending. -/
theorem pending_of_not_inside {evs : List Event} (h : insideOpen evs = false) :
    (openWalk .start evs).pending = false := by
  have go : ∀ (evs : List Event) (w : OpenWalk) (b : Bool), (w.pending = true → b = true) →
      (openWalk w evs).pending = true → evs.foldl (fun b e =>
        if e.sc ∈ openFamily ∧ e.phase = py "enter" then true
        else if e.sc ∈ openFamily ∧ e.phase = py "exit" then false
        else b) b = true := by
    intro evs
    induction evs with
    | nil => exact fun w b hb hw => hb hw
    | cons e evs ih =>
        intro w b hb hw
        rw [List.foldl_cons]
        refine ih (w.step e) _ ?_ hw
        unfold OpenWalk.step
        split_ifs <;> simp_all
  by_contra hp
  have := go evs .start false (by simp [OpenWalk.start]) (by simpa using hp)
  rw [insideOpen] at h
  rw [h] at this
  exact Bool.false_ne_true this

theorem not_obs_of_open {e : Event} (h : e.sc ∈ openFamily) : e.sc ∉ obs := by
  simp only [openFamily, List.mem_cons, List.not_mem_nil, or_false] at h
  rcases h with h | h | h <;> rw [h] <;> decide

theorem not_obs_of_silent {e : Event} (h : e.sc ∈ silent) : e.sc ∉ obs ∧ e.sc ∉ openFamily := by
  simp only [silent, List.mem_cons, List.not_mem_nil, or_false] at h
  rcases h with h | h | h <;> rw [h] <;> decide

theorem views_insert {e : Event} (h : e.sc ∈ silent) (w : OpenWalk) (pre post : List Event) :
    views w (pre ++ e :: post) = views w (pre ++ post) := by
  obtain ⟨hobs, hopen⟩ := not_obs_of_silent h
  rw [views_append, views_append, views, if_neg hobs, step_of_not_open hopen]

theorem ReadOpen.step_enter {enter exit : Event} {mid : List Event} (h : ReadOpen enter exit mid)
    {w : OpenWalk} (hw : w.pending = false) : w.step enter = w := by
  rw [OpenWalk.step, if_pos ⟨h.sc_enter, h.enter_phase⟩, h.readOnly, ← hw]

theorem ReadOpen.step_exit {enter exit : Event} {mid : List Event} (h : ReadOpen enter exit mid)
    {w : OpenWalk} (hw : w.pending = false) : w.step exit = w := by
  have hne : exit.phase ≠ py "enter" := by
    rw [h.exit_phase, Ne, py_inj]
    decide
  have hsame : (⟨w.fds, w.pending⟩ : OpenWalk) = w := rfl
  rw [OpenWalk.step, if_neg (fun h' => hne h'.2), if_pos ⟨h.sc_exit ▸ h.sc_enter, h.exit_phase⟩,
    if_neg (by simp [hw]), ← hw, hsame]

theorem views_insertOpen {enter exit : Event} {mid : List Event} (h : ReadOpen enter exit mid)
    {pre : List Event} (hpre : insideOpen pre = false) (post : List Event) :
    views .start (pre ++ enter :: (mid ++ exit :: post)) = views .start (pre ++ (mid ++ post)) := by
  have hpending := pending_of_not_inside hpre
  have hexit : exit.sc ∈ openFamily := h.sc_exit ▸ h.sc_enter
  rw [views_append, views_append, views, if_neg (not_obs_of_open h.sc_enter),
    h.step_enter hpending, views_append, views_append, openWalk_of_not_open h.mid_other, views,
    if_neg (not_obs_of_open hexit), h.step_exit hpending]

theorem viewEvent_renameBuffer {σ : PyStr → PyStr} (addr : ∀ a, isAddr a → isAddr (σ a))
    (fds : List PyStr) (e : Event) : viewEvent fds (renameBuffer σ e) = viewEvent fds e := by
  unfold renameBuffer
  split_ifs with h
  · have hview : ∀ a, view (if isAddr a then σ a else a) = view a := by
      intro a
      by_cases ha : isAddr a
      · simp [view, ha, addr a ha]
      · simp [ha]
    rcases hargs : e.args with - | ⟨a, - | ⟨b, as⟩⟩
    · simp [viewEvent, hargs]
    · simp [viewEvent, hargs]
    · have hmodify : (a :: b :: as).modify 1 (fun a => if isAddr a then σ a else a)
          = a :: (if isAddr b then σ b else b) :: as := rfl
      simp only [viewEvent, hargs, hmodify, fdArgs]
      by_cases hfd : e.sc ∈ fdCarriers ∧ a ∈ fds
      · simp only [hfd, and_self, if_true, List.map_cons, hview]
      · simp only [hfd, if_false, List.map_cons, hview]
  · rfl

theorem views_rename {σ : PyStr → PyStr} (addr : ∀ a, isAddr a → isAddr (σ a)) (w : OpenWalk)
    (evs : List Event) : views w (evs.map (renameBuffer σ)) = views w evs := by
  have hsc : ∀ e, (renameBuffer σ e).sc = e.sc := by
    intro e
    unfold renameBuffer
    split_ifs <;> rfl
  have hstep : ∀ (w : OpenWalk) e, w.step (renameBuffer σ e) = w.step e := by
    intro w e
    unfold renameBuffer
    split_ifs with h
    · have hopen : e.sc ∉ openFamily := by
        simp only [List.mem_cons, List.not_mem_nil, or_false] at h
        rcases h with h | h <;> rw [h] <;> decide
      rw [step_of_not_open hopen]
      exact step_of_not_open (by exact hopen) w
    · rfl
  induction evs generalizing w with
  | nil => rfl
  | cons e evs ih =>
      simp only [List.map_cons, views, hsc, hstep, viewEvent_renameBuffer addr, ih]

theorem Change.views_eq {evs evs' : List Event} (h : Change evs evs') :
    views .start evs = views .start evs' := by
  cases h with
  | rename σ inj addr => exact (views_rename addr .start evs).symm
  | insert pre post e h => exact (views_insert h .start pre post).symm
  | delete pre post e h => exact views_insert h .start pre post
  | insertOpen pre mid post enter exit h hpre => exact (views_insertOpen h hpre post).symm
  | deleteOpen pre mid post enter exit h hpre => exact views_insertOpen h hpre post

/-- **No variation shows in the view of a stream.** -/
theorem Variation.views_eq {evs evs' : List Event} (h : Variation evs evs') :
    views .start evs = views .start evs' := by
  induction h with
  | refl => rfl
  | tail _ hstep ih => exact ih.trans hstep.views_eq

/-! ### The results -/

theorem mem_views {evs : List Event} {w : OpenWalk} {v : Event} (h : v ∈ views w evs) :
    ∃ e ∈ evs, e.sc ∈ obs ∧ v.result = e.result := by
  induction evs generalizing w with
  | nil => exact absurd h List.not_mem_nil
  | cons e evs ih =>
      rw [views] at h
      split_ifs at h with hobs
      · rcases List.mem_cons.mp h with rfl | h
        · exact ⟨e, List.mem_cons_self, hobs, rfl⟩
        · obtain ⟨e', he', h'⟩ := ih h
          exact ⟨e', List.mem_cons_of_mem e he', h'⟩
      · obtain ⟨e', he', h'⟩ := ih h
        exact ⟨e', List.mem_cons_of_mem e he', h'⟩

theorem exists_mem_views {evs : List Event} {e : Event} (he : e ∈ evs) (hobs : e.sc ∈ obs)
    (w : OpenWalk) : ∃ v ∈ views w evs, v.result = e.result := by
  obtain ⟨pre, post, rfl⟩ := List.append_of_mem he
  refine ⟨viewEvent ((openWalk w pre).step e).fds e, ?_, rfl⟩
  rw [views_append, views, if_pos hobs]
  exact List.mem_append_right _ List.mem_cons_self

/-- No observable event of the run has a result of 2^20 or more. -/
def SmallResults (r : Run) : Prop :=
  ∀ h ∈ r.hooks, h.sc.name ∈ obs → h.phase = .exit →
    ∀ n, h.raw.getLast? = some (some n) → n < 2 ^ 20

theorem relabelResult_views {r : Run} (h : SmallResults r) (T : List PyStr) :
    (views .start r.hookEvents).map (relabelResult T) = views .start r.hookEvents := by
  refine map_eq_self fun v hv => ?_
  obtain ⟨e, he, hobs, hres⟩ := mem_views hv
  obtain ⟨c, hc, rfl⟩ := List.mem_map.mp he
  have hsmall : ∀ t, v.result = some (some t) → isAddr t = false := by
    intro t ht
    rw [hres] at ht
    cases hp : c.phase with
    | enter => simp [HookCall.event, hp] at ht
    | exit =>
        obtain ⟨x, hx, rfl⟩ : ∃ x, c.raw.getLast? = some x ∧ fmt x = t := by
          simpa [HookCall.event, hp] using ht
        rw [Bool.eq_false_iff]
        intro haddr
        obtain ⟨i, rfl, hi⟩ := (isAddr_fmt x).mp haddr
        have hsc : c.sc.name ∈ obs := by simpa [HookCall.event, hp] using hobs
        have := h c hc hsc hp i hx
        omega
  obtain ⟨phase, sc, args, result⟩ := v
  rcases result with - | - | t
  · rfl
  · rfl
  · simp [relabelResult, canonArg, hsmall t rfl]

theorem views_record (r : Run) : views .start (record r).events = views .start r.hookEvents := by
  have hev : (record r).events = r.hookEvents ++ r.faults := rfl
  have hfault : ∀ w, views w r.faults = [] := by
    intro w
    rw [List.eq_nil_iff_forall_not_mem]
    intro v hv
    obtain ⟨e, he, hobs, -⟩ := mem_views hv
    rcases r.sc_faults he with h | h <;> rw [h] at hobs <;> exact absurd hobs (by decide)
  rw [hev, views_append, hfault, List.append_nil]

/-- A prelude of one new address shifts all ordinals. -/
theorem addrs_shift {r : Run} {z : ℤ} (hz : 2 ^ 20 ≤ z) (hno : hexText z ∉ r.addrs) :
    (r.afterBrk [z]).addrs = hexText z :: r.addrs := by
  have haddr : isAddr (hexText z) = true := by
    rw [isAddr_hexText]
    exact decide_eq_true hz
  have hseed : sightAddrs [] ([z].map hexText) = [hexText z] := by
    simp [sightAddrs, sights, sight, haddr]
  have hfresh : hexText z ∉ (streamTexts .start r.hookEvents).filter isAddr := fun hm =>
    hno (r.mem_addrs.mpr (List.mem_filter.mp hm))
  rw [Run.addrs_afterBrk, hseed, sightAddrs, sights_cons hfresh, Run.addrs, addrTable_eq]
  rfl

theorem result_mem_addrs {r : Run} {c : HookCall} (hc : c ∈ r.hooks) {t : PyStr}
    (ht : c.event.result = some (some t)) (haddr : isAddr t) : t ∈ r.addrs := by
  refine r.mem_addrs.mpr ⟨?_, haddr⟩
  obtain ⟨pre, post, hp⟩ := List.append_of_mem (List.mem_map_of_mem (f := HookCall.event) hc)
  rw [Run.hookEvents, hp, streamTexts_append, streamTexts, eventTexts, ht]
  simp [resultTexts]

/-- **Differences of allocation.**  A run is accepted under every variation exactly when its
observable events have small results. -/
theorem variation_accepted_iff (F : Type) [Runtime F] (r : Run) :
    (∀ r', SameOutput r r' → Variation (record r).events (record r').events → Accepts F r r') ↔
      SmallResults r := by
  constructor
  · intro hall c hc hobs hphase n hn
    by_contra hbig
    -- one more `brk` with a fresh address in front shifts the ordinal of a large result
    obtain ⟨z, hz, hno⟩ := exists_fresh_addr r.addrs
    have hvar : Variation (record r).events (record (r.afterBrk [z])).events := by
      have hev : (record (r.afterBrk [z])).events = (brkCall z).event :: (record r).events := by
        simp [record, Run.afterBrk, Run.faults, ← Run.exited_afterBrk r [z]]
      rw [hev]
      exact .single (.insert [] _ _ (by decide : py "brk" ∈ silent))
    have hacc := hall _ (r.sameOutput_afterBrk [z]) hvar
    have heq := obsEvents_of_accepts hacc
    rw [obsEvents_canonicalize (List.prefix_refl _), obsEvents_canonicalize (List.prefix_refl _),
      Run.views_afterBrk, addrs_shift hz hno, List.map_inj_left] at heq
    have hres : c.event.result = some (some (hexText n)) := by
      simp [HookCall.event, hphase, hn, fmt]
    have hsc : c.event.sc ∈ obs := by simpa [HookCall.event, hphase] using hobs
    obtain ⟨v, hv, hvr⟩ := exists_mem_views (List.mem_map_of_mem (f := HookCall.event) hc) hsc .start
    have haddr : isAddr (hexText n) = true := by
      rw [isAddr_hexText]
      exact decide_eq_true (by omega)
    have hmem := result_mem_addrs hc hres haddr
    have hne : hexText n ≠ hexText z := fun h => hno (h ▸ hmem)
    have hresult := congrArg Event.result (heq v hv)
    simp only [relabelResult, hvr, hres, Option.map_some, Option.some.injEq, canonArg, haddr,
      if_true, token, List.append_cancel_left_eq, List.cons.injEq, true_and] at hresult
    have hord := congrArg digitsVal hresult
    rw [digitsVal_natText, digitsVal_natText, ordinal_cons hne hmem] at hord
    omega
  · intro hsmall r' hout hvar
    have hviews := hvar.views_eq
    rw [views_record, views_record] at hviews
    rw [accepts_iff hout, obsEvents_canonicalize (List.prefix_refl _),
      obsEvents_canonicalize (List.prefix_refl _), ← hviews, relabelResult_views hsmall,
      relabelResult_views hsmall]

/-- A run that prints 1 MiB in one write, after some other calls. -/
def bulkRun (before : List HookCall) : Run where
  binary := py "/work/model"
  argv := []
  stdin := []
  out := List.replicate 0x100000 0x61
  err := []
  hooks := before ++ [⟨.write, .enter, [some 1, some 0x4c0000, some 0x100000]⟩,
    ⟨.write, .exit, [some 1, some 0x4c0000, some 0x100000, some 0x100000]⟩,
    ⟨.exitGroup, .enter, [some 0]⟩]
  ending := .finished 0
  files := []
  nodup_files := List.nodup_nil

/-- A model that asks for the break before the write is rejected. -/
theorem variation_not_accepted : ¬ ∀ r r' : Run, SameOutput r r' →
    Variation (record r).events (record r').events → Accepts ZeroFloat r r' := by
  intro h
  have hout : SameOutput (bulkRun []) (bulkRun [⟨.brk, .enter, [some 0]⟩,
      ⟨.brk, .exit, [some 0, some 0x4d0000]⟩]) :=
    ⟨by simp only [bulkRun], rfl, by decide, .refl _⟩
  have hvar : Variation (record (bulkRun [])).events (record (bulkRun [⟨.brk, .enter, [some 0]⟩,
      ⟨.brk, .exit, [some 0, some 0x4d0000]⟩])).events :=
    .tail (.single (.insert [] _ ⟨py "exit", py "brk", [hexText 0], some (some (hexText 0x4d0000))⟩
      (by decide : py "brk" ∈ silent)))
      (.insert [] _ ⟨py "enter", py "brk", [hexText 0], none⟩ (by decide : py "brk" ∈ silent))
  have heq := obsEvents_of_accepts (h _ _ hout hvar)
  exact absurd heq (by decide +kernel)

end ReSchema
