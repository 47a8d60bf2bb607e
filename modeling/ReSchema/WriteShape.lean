/-
ReSchema/WriteShape.lean

The write-family shape.

The shape of a trace is what the architecture notes promise to compare: the
syscall, the canonical descriptor and the byte count of each entered write.
The comparison sees it through wildcards (`shapes_view`).  A count of 2^20 or
more is such a wildcard, and so is a descriptor of that size that no open with
write intent returned.

`writeShape_compared_iff` says that nothing else is lost: the gate compares
the shape of a run against every replay exactly when the run has no such
count and no such descriptor.
-/
import ReSchema.Observed
import ReSchema.Py.Interpreter

namespace ReSchema

open Py

/-! ### The shape -/

/-- The entry of a write or a writev. -/
def isWriteEnter (e : Event) : Bool :=
  e.phase == py "enter" && (e.sc == py "write" || e.sc == py "writev")

/-- Syscall, canonical descriptor and raw byte count. -/
abbrev Shape := PyStr × Option PyStr × Option PyStr

/-- The shape of a trace. -/
def writeShape (F : Type) [Runtime F] (t : Trace) : List Shape :=
  (t.events.zip (canonicalize F t).events).filterMap fun p =>
    if isWriteEnter p.1 then some (p.1.sc, p.2.args[0]?, p.1.args[2]?) else none

/-- The shape of one event under a table of addresses. -/
def shapeOf (T fds : List PyStr) (e : Event) : Shape :=
  (e.sc, (relabel T fds e).args[0]?, e.args[2]?)

/-- The shapes of a stream under a table of addresses. -/
def shapes (T : List PyStr) : OpenWalk → List Event → List Shape
  | _, [] => []
  | w, e :: evs =>
      if isWriteEnter e then shapeOf T (w.step e).fds e :: shapes T (w.step e) evs
      else shapes T (w.step e) evs

theorem shapes_append (T : List PyStr) (w : OpenWalk) (xs ys : List Event) :
    shapes T w (xs ++ ys) = shapes T w xs ++ shapes T (openWalk w xs) ys := by
  induction xs generalizing w with
  | nil => rfl
  | cons e xs ih => by_cases h : isWriteEnter e <;> simp [shapes, h, ih, openWalk]

theorem writeShape_record {F : Type} [Runtime F] {r : Run} {T : List PyStr} (hT : r.addrs <+: T) :
    writeShape F (record r) = shapes T .start r.hookEvents := by
  obtain ⟨s, hs⟩ := canonicalize_events (F := F) hT
  have hfault : ((r.faults.zip (canonEvents F s r.faults)).filterMap fun p =>
      if isWriteEnter p.1 then some (p.1.sc, p.2.args[0]?, p.1.args[2]?) else none) = [] := by
    rw [List.filterMap_eq_nil_iff]
    intro p hp
    have hno : isWriteEnter p.1 = false := by
      rw [isWriteEnter]
      rcases r.sc_faults (List.of_mem_zip hp).1 with h | h <;> rw [h] <;> simp
    simp [hno]
  have hook : ∀ w evs, ((evs.zip (relabelAll T w evs)).filterMap fun p : Event × Event =>
      if isWriteEnter p.1 then some (p.1.sc, p.2.args[0]?, p.1.args[2]?) else none)
      = shapes T w evs := by
    intro w evs
    induction evs generalizing w with
    | nil => rfl
    | cons e evs ih =>
        by_cases h : isWriteEnter e <;> simp [relabelAll, shapes, h, ih, shapeOf]
  have hev : (record r).events = r.hookEvents ++ r.faults := rfl
  rw [writeShape, hs, hev, List.zip_append (length_relabelAll _ _ _).symm, List.filterMap_append, hfault,
    List.append_nil, hook]

/-! ### The shape through wildcards -/

/-- What the comparison sees of a shape. -/
def viewShape (s : Shape) : Shape := (s.1, s.2.1.map wildcard, s.2.2.map view)

theorem fdArgs_getElem?_two (fds : List PyStr) (sc : PyStr) (args : List PyStr) :
    (fdArgs fds sc args)[2]? = args[2]? := by
  cases args with
  | nil => rfl
  | cons a as =>
      simp only [fdArgs]
      split_ifs <;> rfl

theorem viewShape_shapeOf {e : Event} (h : e.Raw) (T fds : List PyStr) :
    viewShape (shapeOf T fds e) =
      (e.sc, (viewEvent fds e).args[0]?, (viewEvent fds e).args[2]?) := by
  have hfd : ∀ a, (fdArgs fds e.sc e.args)[0]? = some a → wildcard (canonArg T a) = view a :=
    fun a ha => wildcard_canonArg
      (viewable_fdArgs (fun b hb => (h.1 b hb).2) a (List.mem_of_getElem? ha)) T
  rw [viewShape, shapeOf, relabel, viewEvent]
  simp only [List.getElem?_map, fdArgs_getElem?_two]
  rcases ha : (fdArgs fds e.sc e.args)[0]? with - | a
  · rfl
  · simp [hfd a ha]

/-- The shapes can be read off what the comparison sees, up to wildcards. -/
theorem shapes_view {evs : List Event} (h : ∀ e ∈ evs, e.Raw) (T : List PyStr) (w : OpenWalk) :
    (shapes T w evs).map viewShape =
      ((views w evs).filter isWriteEnter).map fun e => (e.sc, e.args[0]?, e.args[2]?) := by
  induction evs generalizing w with
  | nil => rfl
  | cons e evs ih =>
      obtain ⟨he, hevs⟩ := List.forall_mem_cons.mp h
      have hview : isWriteEnter (viewEvent (w.step e).fds e) = isWriteEnter e := rfl
      by_cases hw : isWriteEnter e
      · have hobs : e.sc ∈ obs := by
          rw [isWriteEnter, Bool.and_eq_true, Bool.or_eq_true, beq_iff_eq, beq_iff_eq,
            beq_iff_eq] at hw
          rcases hw.2 with h | h <;> rw [h] <;> decide
        simp only [shapes, hw, if_true, views, hobs, List.map_cons, viewShape_shapeOf he,
          List.filter_cons, hview, ih hevs]
        rfl
      · by_cases hobs : e.sc ∈ obs <;>
          simp [shapes, hw, views, hobs, hview, ih hevs]

/-- A shape that no wildcard touches. -/
def Exact (s : Shape) : Prop :=
  (∀ f, s.2.1 = some f → Viewable f) ∧ ∀ n, s.2.2 = some n → isAddr n = false ∧ Viewable n

theorem Exact.eq_of_view {s s' : Shape} (hs : Exact s) (h : viewShape s = viewShape s') :
    s = s' := by
  have hstar : ¬ Viewable (py "ADDR_*") := fun h => h rfl
  have hw : ∀ f f', Viewable f → wildcard f = wildcard f' → f = f' := by
    intro f f' hf he
    simp only [wildcard, not_addr_prefix hf, Bool.false_eq_true, if_false] at he
    split_ifs at he
    · exact absurd (he ▸ hf) hstar
    · exact he
  have hv : ∀ n n', isAddr n = false → Viewable n → view n = view n' → n = n' := by
    intro n n' hn hp he
    simp only [view, hn, Bool.false_eq_true, if_false] at he
    split_ifs at he
    · exact absurd (he ▸ hp) hstar
    · exact he
  obtain ⟨sc, fd, n⟩ := s
  obtain ⟨sc', fd', n'⟩ := s'
  obtain ⟨hfd, hcount⟩ := hs
  simp only [viewShape, Prod.mk.injEq] at h
  obtain ⟨rfl, h1, h2⟩ := h
  congr 2
  · rcases fd with - | f <;> rcases fd' with - | f' <;> simp at h1
    · rfl
    · rw [hw f f' (hfd f rfl) h1]
  · rcases n with - | c <;> rcases n' with - | c' <;> simp at h2
    · rfl
    · rw [hv c c' (hcount c rfl).1 (hcount c rfl).2 h2]

/-! ### Runs whose shape is compared -/

/-- No entered write has a byte count of 2^20 or more, and none a descriptor of 2^20 or more
that no earlier open with write intent returned. -/
def SmallWrites (r : Run) : Prop :=
  ∀ pre h post, r.hooks = pre ++ h :: post → isWriteEnter h.event →
    (∀ n, h.raw[2]? = some (some n) → n < 2 ^ 20) ∧
    ∀ fd, h.raw[0]? = some (some fd) → 2 ^ 20 ≤ fd →
      hexText fd ∈ fdTable (pre.map HookCall.event)

theorem phase_of_enter {h : HookCall} (hw : isWriteEnter h.event) : h.phase = .enter := by
  cases hp : h.phase with
  | enter => rfl
  | exit => simp [HookCall.event, hp, isWriteEnter] at hw

theorem args_of_enter {h : HookCall} (hw : isWriteEnter h.event) :
    h.event.args = h.raw.map fmt := by
  simp [HookCall.event, phase_of_enter hw]

/-- A write does not open anything. -/
theorem step_of_write {e : Event} (hw : isWriteEnter e) (w : OpenWalk) : w.step e = w := by
  rw [isWriteEnter, Bool.and_eq_true, Bool.or_eq_true, beq_iff_eq, beq_iff_eq, beq_iff_eq] at hw
  have hno : e.sc ∉ openFamily := by
    rcases hw.2 with h | h <;> rw [h] <;> decide
  rw [OpenWalk.step, if_neg (fun h => hno h.1), if_neg (fun h => hno h.1)]

theorem exact_shapeOf {h : HookCall} (hw : isWriteEnter h.event) {fds : List PyStr}
    (hcount : ∀ n, h.raw[2]? = some (some n) → n < 2 ^ 20)
    (hfd : ∀ fd, h.raw[0]? = some (some fd) → 2 ^ 20 ≤ fd → hexText fd ∈ fds) (T : List PyStr) :
    Exact (shapeOf T fds h.event) := by
  have hargs := args_of_enter hw
  have hcarry : h.event.sc ∈ fdCarriers := by
    rw [isWriteEnter, Bool.and_eq_true, Bool.or_eq_true, beq_iff_eq, beq_iff_eq, beq_iff_eq] at hw
    rcases hw.2 with h | h <;> rw [h] <;> decide
  constructor
  · intro f hf
    rw [shapeOf, relabel, hargs] at hf
    rcases hraw : h.raw with - | ⟨a, as⟩
    · simp [hraw, fdArgs] at hf
    · simp only [hraw, List.map_cons, fdArgs, hcarry, true_and] at hf
      -- a descriptor has its name, and a large number would be one that an open returned
      split_ifs at hf with hmem
      · have hne : isAddr (token "FD" fds (fmt a)) = false := rfl
        simp only [List.map_cons, List.getElem?_cons_zero, Option.some.injEq, canonArg, hne,
          Bool.false_eq_true, if_false] at hf
        subst hf
        exact (by decide : some (ch 'F') ≠ some (ch 'A'))
      · simp only [List.map_cons, List.getElem?_cons_zero, Option.some.injEq, canonArg] at hf
        split_ifs at hf with haddr
        · obtain ⟨i, rfl, hi⟩ := (isAddr_fmt a).mp haddr
          exact absurd (hfd i (by simp [hraw]) hi) hmem
        · subst hf
          exact (plain_fmt a).2
  · intro n hn
    rw [shapeOf, hargs, List.getElem?_map, Option.map_eq_some_iff] at hn
    obtain ⟨a, ha, rfl⟩ := hn
    refine ⟨?_, (plain_fmt a).2⟩
    rw [Bool.eq_false_iff]
    intro haddr
    obtain ⟨i, rfl, hi⟩ := (isAddr_fmt a).mp haddr
    exact absurd (hcount i ha) (by omega)

theorem exact_shapes {r : Run} (h : SmallWrites r) (T : List PyStr) :
    ∀ s ∈ shapes T .start r.hookEvents, Exact s := by
  have go : ∀ post pre, r.hooks = pre ++ post →
      ∀ s ∈ shapes T (openWalk .start (pre.map HookCall.event)) (post.map HookCall.event), Exact s := by
    intro post
    induction post with
    | nil => exact fun _ _ _ hs => absurd hs List.not_mem_nil
    | cons c post ih =>
        intro pre hpre s hs
        have hrest := ih (pre ++ [c]) (by simp [hpre])
        rw [List.map_append, openWalk, List.foldl_append] at hrest
        simp only [List.map_cons, shapes] at hs
        split_ifs at hs with hw
        · rcases List.mem_cons.mp hs with rfl | hs
          · rw [step_of_write hw]
            obtain ⟨hcount, hfd⟩ := h pre c post hpre hw
            exact exact_shapeOf hw hcount hfd T
          · exact hrest s hs
        · exact hrest s hs
  exact go r.hooks [] rfl

theorem shapes_relabelResult (T : List PyStr) (evs : List Event) :
    ((evs.map (relabelResult T)).filter isWriteEnter).map (fun e => (e.sc, e.args[0]?, e.args[2]?))
      = (evs.filter isWriteEnter).map fun e => (e.sc, e.args[0]?, e.args[2]?) := by
  induction evs with
  | nil => rfl
  | cons e evs ih =>
      have hsame : isWriteEnter (relabelResult T e) = isWriteEnter e := rfl
      by_cases hw : isWriteEnter e
      · simp only [List.map_cons, List.filter_cons, hsame, hw, if_true, ih]
        rfl
      · simp [hsame, hw, ih]

/-- **Soundness.**  The gate compares the shape of a run with small writes. -/
theorem writeShape_eq_of_accepts {F : Type} [Runtime F] {r r' : Run} (h : SmallWrites r)
    (hacc : Accepts F r r') : writeShape F (record r) = writeShape F (record r') := by
  have hobs := obsEvents_of_accepts hacc
  rw [obsEvents_canonicalize (List.prefix_refl r.addrs),
    obsEvents_canonicalize (List.prefix_refl r'.addrs)] at hobs
  have hview : (shapes r.addrs .start r.hookEvents).map viewShape
      = (shapes r'.addrs .start r'.hookEvents).map viewShape := by
    rw [shapes_view r.raw_hookEvents, shapes_view r'.raw_hookEvents,
      ← shapes_relabelResult r.addrs, hobs, shapes_relabelResult]
  rw [writeShape_record (List.prefix_refl _), writeShape_record (List.prefix_refl _)]
  have hexact := exact_shapes h r.addrs
  generalize shapes r.addrs .start r.hookEvents = xs at hview hexact
  generalize shapes r'.addrs .start r'.hookEvents = ys at hview
  induction xs generalizing ys with
  | nil => simpa using hview.symm
  | cons x xs ih =>
      cases ys with
      | nil => simp at hview
      | cons y ys =>
          obtain ⟨hx, hxs⟩ := List.forall_mem_cons.mp hexact
          simp only [List.map_cons, List.cons.injEq] at hview
          rw [hx.eq_of_view hview.1, ih hxs ys hview.2]

/-! ### Replacing an address -/

/-- The hook call with another number for one argument. -/
def HookCall.setArg (h : HookCall) (k : ℕ) (z : ℤ) : HookCall := { h with raw := h.raw.set k (some z) }

theorem event_setArg {h : HookCall} (hw : isWriteEnter h.event) (k : ℕ) (z : ℤ) :
    (h.setArg k z).event = { h.event with args := h.event.args.set k (hexText z) } := by
  simp [HookCall.event, HookCall.setArg, phase_of_enter hw, fmt]

/-- The argument `k` of a write, after the descriptors `fds`, is the address `n`, and any
other address but a known descriptor may stand for it. -/
structure Replaceable (fds : List PyStr) (h : HookCall) (k : ℕ) (n : ℤ) : Prop where
  enter : isWriteEnter h.event
  addr : 2 ^ 20 ≤ n
  arg : (fdArgs fds h.event.sc h.event.args)[k]? = some (hexText n)
  set : ∀ z, hexText z ∉ fds → fdArgs fds h.event.sc (h.event.args.set k (hexText z))
    = (fdArgs fds h.event.sc h.event.args).set k (hexText z)
  seen : k = 0 ∨ k = 2

theorem replaceable_count {h : HookCall} (hw : isWriteEnter h.event) {n : ℤ}
    (hn : h.raw[2]? = some (some n)) (hbig : 2 ^ 20 ≤ n) (fds : List PyStr) :
    Replaceable fds h 2 n := by
  refine ⟨hw, hbig, by simp [fdArgs_getElem?_two, args_of_enter hw, hn, fmt], fun z _ => ?_, .inr rfl⟩
  rcases h.event.args with - | ⟨a, as⟩
  · rfl
  · simp only [fdArgs, List.set_cons_succ]
    split_ifs <;> rfl

theorem replaceable_fd {h : HookCall} (hw : isWriteEnter h.event) {fd : ℤ}
    (hfd : h.raw[0]? = some (some fd)) (hbig : 2 ^ 20 ≤ fd) {fds : List PyStr}
    (hno : hexText fd ∉ fds) : Replaceable fds h 0 fd := by
  obtain ⟨as, has⟩ : ∃ as, h.event.args = hexText fd :: as := by
    rcases hraw : h.raw with - | ⟨x, xs⟩
    · simp [hraw] at hfd
    · obtain rfl : x = some fd := by simpa [hraw] using hfd
      exact ⟨xs.map fmt, by rw [args_of_enter hw, hraw]; rfl⟩
  refine ⟨hw, hbig, by simp [has, fdArgs, hno], fun z hz => ?_, .inl rfl⟩
  simp [has, fdArgs, hno, hz]

section Replace

variable {fds : List PyStr} {h : HookCall} {k : ℕ} {n z : ℤ}

theorem Replaceable.viewEvent_eq (hr : Replaceable fds h k n) (hz : 2 ^ 20 ≤ z)
    (hfresh : hexText z ∉ fds) :
    viewEvent fds (h.setArg k z).event = viewEvent fds h.event := by
  have hview : ∀ i : ℤ, 2 ^ 20 ≤ i → view (hexText i) = py "ADDR_*" := by
    intro i hi
    rw [view, isAddr_hexText, if_pos (by simpa using hi)]
  rw [event_setArg hr.enter, viewEvent, viewEvent]
  simp only [hr.set z hfresh, List.map_set, hview z hz]
  have harg : ((fdArgs fds h.event.sc h.event.args).map view)[k]? = some (py "ADDR_*") := by
    rw [List.getElem?_map, hr.arg, Option.map_some, hview n hr.addr]
  obtain ⟨hk, hget⟩ := List.getElem?_eq_some_iff.mp harg
  rw [← hget, List.set_getElem_self]

theorem Replaceable.mem_texts (hr : Replaceable fds h k n) (hfresh : hexText z ∉ fds)
    {a : PyStr} (ha : a ∈ eventTexts fds (h.setArg k z).event) :
    a ∈ eventTexts fds h.event ∨ a = hexText z := by
  rw [event_setArg hr.enter, eventTexts, List.mem_append] at ha
  simp only [hr.set z hfresh] at ha
  rw [eventTexts, List.mem_append]
  rcases ha with ha | ha
  · rcases List.mem_or_eq_of_mem_set ha with ha | ha
    · exact .inl (.inl ha)
    · exact .inr ha
  · exact .inl (.inr ha)

theorem Replaceable.shapeOf_ne (hr : Replaceable fds h k n) (hfresh : hexText z ∉ fds)
    (hz : 2 ^ 20 ≤ z) (hne : hexText n ≠ hexText z) {T : List PyStr} (hmem : hexText z ∈ T) :
    shapeOf T fds (h.setArg k z).event ≠ shapeOf T fds h.event := by
  have hlt : k < (fdArgs fds h.event.sc h.event.args).length :=
    (List.getElem?_eq_some_iff.mp hr.arg).1
  intro heq
  rw [event_setArg hr.enter, shapeOf, shapeOf, relabel, relabel, Prod.mk.injEq, Prod.mk.injEq]
    at heq
  simp only [hr.set z hfresh] at heq
  rcases hr.seen with rfl | rfl
  · have h0 := heq.2.1
    rw [List.getElem?_map, List.getElem?_set_self hlt, List.getElem?_map, hr.arg] at h0
    simp only [Option.map_some, Option.some.injEq, canonArg, isAddr_hexText, decide_eq_true hz,
      decide_eq_true hr.addr, if_true, token, List.append_cancel_left_eq, List.cons.injEq,
      true_and] at h0
    have hord : ordinal T (hexText z) = ordinal T (hexText n) := by
      have := congrArg digitsVal h0
      rwa [digitsVal_natText, digitsVal_natText] at this
    exact hne ((ordinal_inj hmem).mp hord).symm
  · have h2 := heq.2.2
    have hargs : h.event.args[2]? = some (hexText n) := by
      rw [← fdArgs_getElem?_two fds h.event.sc]
      exact hr.arg
    have hlt2 : 2 < h.event.args.length := (List.getElem?_eq_some_iff.mp hargs).1
    rw [List.getElem?_set_self hlt2, hargs] at h2
    exact hne (Option.some.inj h2).symm

end Replace

theorem shapes_brk (T : List PyStr) (w : OpenWalk) (is : List ℤ) :
    shapes T w ((is.map brkCall).map HookCall.event) = [] := by
  induction is with
  | nil => rfl
  | cons i is ih => exact ih

/-- A run with one hook call singled out. -/
structure Focus (r : Run) where
  pre : List HookCall
  call : HookCall
  post : List HookCall
  hooks_eq : r.hooks = pre ++ call :: post

section Focus

variable {r : Run} (f : Focus r)

/-- The walk up to the call. -/
def Focus.walk : OpenWalk := openWalk .start (f.pre.map HookCall.event)

/-- The run with another number for one argument of the call. -/
def Focus.replaced (k : ℕ) (z : ℤ) : Run :=
  { r with hooks := f.pre ++ f.call.setArg k z :: f.post, nodup_files := r.nodup_keys }

theorem Focus.hookEvents_eq :
    r.hookEvents = f.pre.map HookCall.event ++ f.call.event :: f.post.map HookCall.event := by
  simp [Run.hookEvents, f.hooks_eq]

theorem Focus.hookEvents_replaced (k : ℕ) (z : ℤ) : (f.replaced k z).hookEvents
    = f.pre.map HookCall.event ++ (f.call.setArg k z).event :: f.post.map HookCall.event := by
  simp [Run.hookEvents, Focus.replaced]

variable {f} {k : ℕ} {n z : ℤ} (hrep : Replaceable f.walk.fds f.call k n)

include hrep

theorem Replaceable.step_call : f.walk.step f.call.event = f.walk := step_of_write hrep.enter _

theorem Replaceable.enter_replaced (z : ℤ) : isWriteEnter (f.call.setArg k z).event := by
  rw [event_setArg hrep.enter]
  exact hrep.enter

theorem Replaceable.step_replaced (z : ℤ) : f.walk.step (f.call.setArg k z).event = f.walk :=
  step_of_write (hrep.enter_replaced z) _

/-- After a prelude that meets all addresses of the run and the new one, the replaced run meets
no other. -/
theorem Replaceable.addrs_replaced (hz : 2 ^ 20 ≤ z) (hzT : hexText z ∉ r.addrs)
    (hfresh : hexText z ∉ f.walk.fds) {is : List ℤ} (his : is.map hexText = r.addrs) :
    ((f.replaced k z).afterBrk (is ++ [z])).addrs = r.addrs ++ [hexText z] := by
  have hnodup : (r.addrs ++ [hexText z]).Nodup :=
    List.nodup_append.mpr ⟨r.nodup_addrs, by simp, fun a ha b hb => by
      rw [List.mem_singleton.mp hb]
      rintro rfl
      exact hzT ha⟩
  have hall : ∀ a ∈ r.addrs ++ [hexText z], isAddr a = true := by
    intro a ha
    rcases List.mem_append.mp ha with ha | ha
    · exact (r.mem_addrs.mp ha).2
    · rw [List.mem_singleton.mp ha, isAddr_hexText]
      exact decide_eq_true hz
  have hseed : sightAddrs [] ((is ++ [z]).map hexText) = r.addrs ++ [hexText z] := by
    rw [List.map_append, his, List.map_singleton, sightAddrs, List.filter_eq_self.mpr hall,
      sights_nil_of_nodup hnodup]
  rw [Run.addrs_afterBrk, hseed, sightAddrs]
  -- so all that is left is that the replaced run has no other address
  refine sights_of_subset fun a ha => ?_
  obtain ⟨htext, haddr⟩ := List.mem_filter.mp ha
  have hknown : a ∈ streamTexts .start r.hookEvents → a ∈ r.addrs ++ [hexText z] := fun h =>
    List.mem_append_left _ (r.mem_addrs.mpr ⟨h, haddr⟩)
  rw [f.hookEvents_replaced, streamTexts_append, List.mem_append, streamTexts, List.mem_append,
    ← Focus.walk, hrep.step_replaced] at htext
  rw [f.hookEvents_eq, streamTexts_append, List.mem_append, streamTexts, List.mem_append,
    ← Focus.walk, hrep.step_call] at hknown
  rcases htext with h1 | h1 | h1
  · exact hknown (.inl h1)
  · rcases hrep.mem_texts hfresh h1 with h2 | rfl
    · exact hknown (.inr (.inl h2))
    · exact List.mem_append_right _ List.mem_cons_self
  · exact hknown (.inr (.inr h1))

theorem Replaceable.views_replaced (hz : 2 ^ 20 ≤ z) (hfresh : hexText z ∉ f.walk.fds) :
    views .start (f.replaced k z).hookEvents = views .start r.hookEvents := by
  have hsc : (f.call.setArg k z).event.sc = f.call.event.sc := by rw [event_setArg hrep.enter]
  rw [f.hookEvents_replaced, f.hookEvents_eq, views_append, views_append, ← Focus.walk]
  simp only [views, hrep.step_call, hrep.step_replaced, hrep.viewEvent_eq hz hfresh, hsc]

omit hrep in
theorem Focus.sameOutput_replaced (f : Focus r) (k : ℕ) (z : ℤ) :
    SameOutput r (f.replaced k z) := by
  refine ⟨rfl, rfl, ?_, .refl _⟩
  simp [Run.exitCode, Run.exited, Focus.replaced, f.hooks_eq, HookCall.setArg]

/-- A replaceable argument makes the gate accept a replay of another shape. -/
theorem Replaceable.exists_misjudged (F : Type) [Runtime F] :
    ∃ r', Accepts F r r' ∧ writeShape F (record r) ≠ writeShape F (record r') := by
  obtain ⟨z, hz, hno⟩ := exists_fresh_addr (r.addrs ++ f.walk.fds ++ [hexText n])
  simp only [List.mem_append, List.mem_singleton, not_or] at hno
  obtain ⟨⟨hzT, hfresh⟩, hzn⟩ := hno
  obtain ⟨is, his⟩ := r.exists_ints
  have haddrs := hrep.addrs_replaced hz hzT hfresh his
  have hpre : r.addrs <+: r.addrs ++ [hexText z] := List.prefix_append _ _
  have hpre' : ((f.replaced k z).afterBrk (is ++ [z])).addrs <+: r.addrs ++ [hexText z] := by
    rw [haddrs]
  refine ⟨(f.replaced k z).afterBrk (is ++ [z]), ?_, ?_⟩
  · have hout : SameOutput r ((f.replaced k z).afterBrk (is ++ [z])) :=
      (f.sameOutput_replaced k z).trans (Run.sameOutput_afterBrk _ _)
    rw [accepts_iff hout, obsEvents_canonicalize hpre, obsEvents_canonicalize hpre',
      Run.views_afterBrk, hrep.views_replaced hz hfresh]
  · have hmem : hexText z ∈ r.addrs ++ [hexText z] := by simp
    have hne := hrep.shapeOf_ne hfresh hz (Ne.symm hzn) hmem
    rw [writeShape_record hpre, writeShape_record hpre', Run.hookEvents_afterBrk, shapes_append,
      shapes_brk, openWalk_brk, List.nil_append, f.hookEvents_replaced, f.hookEvents_eq,
      shapes_append, shapes_append, ← Focus.walk]
    simp only [shapes, hrep.enter, hrep.enter_replaced z, if_true, hrep.step_call,
      hrep.step_replaced]
    intro heq
    exact hne (List.cons.inj (List.append_cancel_left heq)).1.symm

end Focus

/-! ### Where the shape is compared -/

/-- **The write-family shape.**  The gate compares the shape of a run against every replay
exactly when the run has small writes. -/
theorem writeShape_compared_iff (F : Type) [Runtime F] (r : Run) :
    (∀ r', Accepts F r r' → writeShape F (record r) = writeShape F (record r')) ↔
      SmallWrites r := by
  constructor
  · intro hall
    by_contra hbad
    simp only [SmallWrites, not_forall, not_and_or] at hbad
    obtain ⟨pre, h, post, hr, hw, hbad⟩ := hbad
    let f : Focus r := ⟨pre, h, post, hr⟩
    obtain ⟨k, n, hrep⟩ : ∃ k n, Replaceable f.walk.fds f.call k n := by
      rcases hbad with ⟨n, hn, hbig⟩ | ⟨fd, hfd, hbig, hno⟩
      · exact ⟨2, n, replaceable_count hw hn (by omega) _⟩
      · exact ⟨0, fd, replaceable_fd hw hfd hbig hno⟩
    obtain ⟨r', hacc, hne⟩ := hrep.exists_misjudged F
    exact hne (hall r' hacc)
  · exact fun h r' hacc => writeShape_eq_of_accepts h hacc

/-- A run that prints 2.5 MiB in two writes of `a` and `b` bytes. -/
def splitRun (a b : ℤ) : Run where
  binary := py "/work/model"
  argv := []
  stdin := []
  out := List.replicate 0x280000 0x61
  err := []
  hooks := [⟨.write, .enter, [some 1, some 0x4c0000, some a]⟩,
    ⟨.write, .exit, [some 1, some 0x4c0000, some a, some a]⟩,
    ⟨.write, .enter, [some 1, some (0x4c0000 + a), some b]⟩,
    ⟨.write, .exit, [some 1, some (0x4c0000 + a), some b, some b]⟩,
    ⟨.exitGroup, .enter, [some 0]⟩]
  ending := .finished 0
  files := []
  nodup_files := List.nodup_nil

/-- The order of two writes of 1.5 MiB and 1 MiB is not compared. -/
theorem writeShape_not_compared : ¬ ∀ r r' : Run, Accepts ZeroFloat r r' →
    writeShape ZeroFloat (record r) = writeShape ZeroFloat (record r') := by
  intro h
  have hout : SameOutput (splitRun 0x180000 0x100000) (splitRun 0x100000 0x180000) :=
    ⟨by simp only [splitRun], rfl, by decide, .refl _⟩
  have hacc := (accepts_iff (F := ZeroFloat) hout).mpr (by decide +kernel)
  exact absurd (h _ _ hacc) (by decide +kernel)

end ReSchema
