/-
ReSchema/Observed.lean

What the comparison sees of a recorded trace.

After canonicalisation and wildcards nothing is left of the table of addresses
but in the results: an argument is a wildcard where it has the shape of an
address, and itself or a descriptor's name elsewhere.  `views` is this image of
an event stream, and `obsEvents_canonicalize` says that the comparison looks
at it, with the results relabelled.

A number has the shape of an address from 2^20 on (`isAddr_hexText`), whatever
it counts or names.
-/
import ReSchema.Compare

namespace ReSchema

open Py

/-! ### The shape of an address -/

theorem isAddr_hexText (i : ℤ) : isAddr (hexText i) = decide (2 ^ 20 ≤ i) := by
  unfold hexText
  split
  · rename_i hneg
    rw [decide_eq_false (by omega)]
    rfl
  · rename_i hpos
    have hcons : py "0x" ++ (Nat.toDigits 16 i.natAbs).map ch
        = ch '0' :: ch 'x' :: (Nat.toDigits 16 i.natAbs).map ch := rfl
    have hall : ((Nat.toDigits 16 i.natAbs).map ch).all isLowerHex = true := by
      rw [List.all_map, List.all_eq_true]
      intro c hc
      obtain ⟨k, hk, rfl⟩ := exists_of_mem_toDigits hc
      exact (by decide : ∀ k < 16, isLowerHex (ch (Nat.digitChar k)) = true) k hk
    have hlen := Nat.length_toDigits_le_iff (b := 16) (n := i.natAbs) (k := 5) (by decide)
      (by decide)
    rw [hcons, isAddr, hall, List.length_map, Bool.and_true, Bool.eq_iff_iff]
    simp only [beq_self_eq_true, Bool.true_and, decide_eq_true_iff]
    omega

theorem isAddr_fmt (a : Option ℤ) : isAddr (fmt a) = true ↔ ∃ i, a = some i ∧ 2 ^ 20 ≤ i := by
  cases a with
  | none => simp [fmt, isAddr, py]
  | some i => simp [fmt, isAddr_hexText]

/-! ### The view of an event stream -/

/-- A text with an address made a wildcard. -/
def view (a : PyStr) : PyStr := if isAddr a then py "ADDR_*" else a

/-- The event as the comparison sees it, but for its result. -/
def viewEvent (fds : List PyStr) (e : Event) : Event :=
  { e with args := (fdArgs fds e.sc e.args).map view }

/-- The observable events, as the comparison sees them but for their results. -/
def views : OpenWalk → List Event → List Event
  | _, [] => []
  | w, e :: evs =>
      if e.sc ∈ obs then viewEvent (w.step e).fds e :: views (w.step e) evs
      else views (w.step e) evs

/-- The result relabelled by a table of addresses. -/
def relabelResult (T : List PyStr) (e : Event) : Event :=
  { e with result := e.result.map (Option.map (canonArg T)) }

theorem views_append (w : OpenWalk) (xs ys : List Event) :
    views w (xs ++ ys) = views w xs ++ views (openWalk w xs) ys := by
  induction xs generalizing w with
  | nil => rfl
  | cons e xs ih => by_cases h : e.sc ∈ obs <;> simp [views, h, ih, openWalk]

/-- An argument that the pass leaves where a hook put it, or that it put there itself. -/
def Viewable (a : PyStr) : Prop := a.head? ≠ some (ch 'A')

theorem not_addr_prefix {a : PyStr} (h : Viewable a) : (py "ADDR_").isPrefixOf a = false := by
  rcases a with - | ⟨c, a⟩
  · rfl
  · have hc : (ch 'A' == c) = false := by
      rw [beq_eq_false_iff_ne]
      exact fun e => h (by rw [e]; rfl)
    have hp : py "ADDR_" = ch 'A' :: py "DDR_" := rfl
    rw [hp, List.isPrefixOf, hc]
    rfl

theorem wildcard_token (T : List PyStr) (a : PyStr) : wildcard (token "ADDR" T a) = py "ADDR_*" := by
  have hp : (py "ADDR_").isPrefixOf (token "ADDR" T a) = true := by
    rw [List.isPrefixOf_iff_prefix]
    exact ⟨natText (ordinal T a), by simp [token, py]⟩
  rw [wildcard, if_pos hp]

theorem wildcard_canonArg {a : PyStr} (h : Viewable a) (T : List PyStr) :
    wildcard (canonArg T a) = view a := by
  by_cases ha : isAddr a
  · rw [canonArg, if_pos ha, wildcard_token, view, if_pos ha]
  · rw [canonArg, if_neg ha, view, if_neg ha, wildcard, not_addr_prefix h]
    rfl

theorem viewable_fdArgs {fds : List PyStr} {sc : PyStr} {args : List PyStr}
    (h : ∀ a ∈ args, Viewable a) : ∀ a ∈ fdArgs fds sc args, Viewable a := by
  cases args with
  | nil => exact h
  | cons b as =>
      intro a ha
      simp only [fdArgs] at ha
      split_ifs at ha
      · rcases List.mem_cons.mp ha with rfl | ha
        · exact (by decide : some (ch 'F') ≠ some (ch 'A'))
        · exact h a (List.mem_cons_of_mem b ha)
      · exact h a ha

theorem obsEvents_relabelAll {evs : List Event} (h : ∀ e ∈ evs, e.Raw) (w : OpenWalk)
    (T : List PyStr) :
    obsEvents (relabelAll T w evs) = (views w evs).map (relabelResult T) := by
  induction evs generalizing w with
  | nil => rfl
  | cons e evs ih =>
      obtain ⟨he, hevs⟩ := List.forall_mem_cons.mp h
      have hargs : ((fdArgs (w.step e).fds e.sc e.args).map (canonArg T)).map wildcard
          = (fdArgs (w.step e).fds e.sc e.args).map view := by
        rw [List.map_map]
        exact List.map_congr_left fun a ha =>
          wildcard_canonArg (viewable_fdArgs (fun b hb => (he.1 b hb).2) a ha) T
      have ih' := ih hevs (w.step e)
      rw [obsEvents] at ih'
      by_cases hobs : e.sc ∈ obs
      · simp only [relabelAll, views, hobs, if_true, List.map_cons, ← ih']
        simp [obsEvents, relabel, hobs, hargs, relabelResult, viewEvent]
      · simp only [relabelAll, views, hobs, if_false, ← ih']
        simp [obsEvents, relabel, hobs]

/-! ### Recorded traces -/

/-- The events of the hooks. -/
def Run.hookEvents (r : Run) : List Event := r.hooks.map HookCall.event

/-- The walk before the first event. -/
def OpenWalk.start : OpenWalk := ⟨[], false⟩

/-- The table of addresses of a run. -/
def Run.addrs (r : Run) : List PyStr := addrTable [] .start r.hookEvents

theorem Run.raw_hookEvents (r : Run) : ∀ e ∈ r.hookEvents, e.Raw := by
  rintro _ he
  obtain ⟨h, -, rfl⟩ := List.mem_map.mp he
  exact h.raw_event

theorem Run.sc_faults {r : Run} {e : Event} (h : e ∈ r.faults) :
    e.sc = py "timeout" ∨ e.sc = py "crash" := by
  unfold Run.faults at h
  split at h
  · split_ifs at h
    · exact absurd h List.not_mem_nil
    · rw [List.mem_singleton.mp h]
      exact .inl rfl
  · rw [List.mem_singleton.mp h]
    exact .inr rfl

theorem Run.mem_addrs {r : Run} {a : PyStr} :
    a ∈ r.addrs ↔ a ∈ streamTexts .start r.hookEvents ∧ isAddr a := by
  rw [addrs, addrTable_eq, mem_sightAddrs]
  simp

theorem Run.nodup_addrs (r : Run) : r.addrs.Nodup := by
  rw [addrs, addrTable_eq]
  exact nodup_sights List.nodup_nil _

section Canonical

variable {F : Type} [Runtime F]

theorem canonEvents_sc {evs : List Event} {s : CanonState} {e : Event}
    (h : e ∈ canonEvents F s evs) : ∃ e' ∈ evs, e'.sc = e.sc ∧ e'.phase = e.phase := by
  induction evs generalizing s with
  | nil => exact absurd h List.not_mem_nil
  | cons f evs ih =>
      rw [canonEvents] at h
      rcases List.mem_cons.mp h with rfl | h
      · exact ⟨f, List.mem_cons_self, rfl, rfl⟩
      · obtain ⟨e', he', h'⟩ := ih h
        exact ⟨e', List.mem_cons_of_mem f he', h'⟩

theorem canonicalize_events {r : Run} {T : List PyStr} (hT : r.addrs <+: T) :
    ∃ s, (canonicalize F (record r)).events =
      relabelAll T .start r.hookEvents ++ canonEvents F s r.faults := by
  refine ⟨CanonState.run F .init r.hookEvents, ?_⟩
  have h := canonEvents_raw (F := F) r.raw_hookEvents .init hT
  have hev : (record r).events = r.hookEvents ++ r.faults := rfl
  rw [canonicalize, hev, canonEvents_append, h]
  rfl

/-- **The observable events of a recorded trace**, under its own table of addresses or any
later one. -/
theorem obsEvents_canonicalize {r : Run} {T : List PyStr} (hT : r.addrs <+: T) :
    obsEvents (canonicalize F (record r)).events
      = (views .start r.hookEvents).map (relabelResult T) := by
  obtain ⟨s, hs⟩ := canonicalize_events (F := F) hT
  have hfault : obsEvents (canonEvents F s r.faults) = [] := by
    rw [obsEvents, List.map_eq_nil_iff, List.filter_eq_nil_iff]
    intro e he
    obtain ⟨e', he', hsc, -⟩ := canonEvents_sc he
    rw [← hsc]
    rcases r.sc_faults he' with h | h <;> rw [h] <;> decide
  have happ : ∀ xs ys, obsEvents (xs ++ ys) = obsEvents xs ++ obsEvents ys := by
    simp [obsEvents]
  rw [hs, happ, hfault, List.append_nil, obsEvents_relabelAll r.raw_hookEvents]

end Canonical

/-- The gate accepts the second run as a replay of the first: `compare` of the two canonical
traces. -/
def Accepts (F : Type) [Runtime F] (r r' : Run) : Prop :=
  IsOk (compare (F := F) [canonicalize F (record r)] [(canonicalize F (record r')).toJson])

/-- Two runs have the same output: streams, exit code and files, these in any order. -/
structure SameOutput (r r' : Run) : Prop where
  out : r.out = r'.out
  err : r.err = r'.err
  exitCode : r.exitCode = r'.exitCode
  files : r.files.Perm r'.files

theorem SameOutput.trans {r s t : Run} (h : SameOutput r s) (h' : SameOutput s t) :
    SameOutput r t :=
  ⟨h.out.trans h'.out, h.err.trans h'.err, h.exitCode.trans h'.exitCode, h.files.trans h'.files⟩

section Accepts

variable {F : Type} [Runtime F]

theorem obsEvents_of_accepts {r r' : Run} (h : Accepts F r r') :
    obsEvents (canonicalize F (record r)).events = obsEvents (canonicalize F (record r')).events := by
  have := isOk_compare_iff.mp h _ List.mem_cons_self
  exact (agrees_toJson_iff.mp this).2.2.2.2

theorem accepts_iff {r r' : Run} (h : SameOutput r r') :
    Accepts F r r' ↔
      obsEvents (canonicalize F (record r)).events = obsEvents (canonicalize F (record r')).events := by
  refine ⟨obsEvents_of_accepts, fun hobs => isOk_compare_iff.mpr fun p hp => ?_⟩
  rw [List.zip_cons_cons, List.zip_nil_left, List.mem_singleton] at hp
  subst hp
  have hkeys : (Dict.keys (record r').filesWritten).Nodup := by
    simpa [record, Dict.keys, Function.comp_def] using r'.nodup_files
  have hfiles : (record r).filesWritten.Perm (record r').filesWritten := h.files.map _
  refine agrees_toJson_iff.mpr ⟨?_, ?_, h.exitCode, ?_, hobs⟩
  · exact congrArg hex h.out
  · exact congrArg hex h.err
  · exact pyEq_files_perm hfiles hkeys

end Accepts

/-! ### A prelude of `brk` calls -/

/-- The entry of `brk(i)`. -/
def brkCall (i : ℤ) : HookCall := ⟨.brk, .enter, [some i]⟩

theorem Run.nodup_keys (r : Run) : r.files.keys.Nodup := r.nodup_files

/-- The run with some more `brk` calls in front. -/
def Run.afterBrk (r : Run) (is : List ℤ) : Run :=
  { r with hooks := is.map brkCall ++ r.hooks, nodup_files := r.nodup_keys }

theorem brk_step (w : OpenWalk) (i : ℤ) : w.step (brkCall i).event = w := rfl

theorem openWalk_brk (w : OpenWalk) (is : List ℤ) :
    openWalk w ((is.map brkCall).map HookCall.event) = w := by
  induction is with
  | nil => rfl
  | cons i is ih => rw [List.map_cons, List.map_cons, openWalk, List.foldl_cons, brk_step]; exact ih

theorem views_brk (w : OpenWalk) (is : List ℤ) :
    views w ((is.map brkCall).map HookCall.event) = [] := by
  induction is with
  | nil => rfl
  | cons i is ih =>
      have hobs : (brkCall i).event.sc ∉ obs := (by decide : py "brk" ∉ obs)
      rw [List.map_cons, List.map_cons, views, if_neg hobs, brk_step, ih]

theorem streamTexts_brk (w : OpenWalk) (is : List ℤ) :
    streamTexts w ((is.map brkCall).map HookCall.event) = is.map hexText := by
  induction is with
  | nil => rfl
  | cons i is ih =>
      have htexts : eventTexts w.fds (brkCall i).event = [hexText i] := by
        have hcarry : py "brk" ∉ fdCarriers := by decide
        simp [eventTexts, brkCall, HookCall.event, Syscall.name, fdArgs, hcarry, fmt, resultTexts]
      rw [List.map_cons, List.map_cons, streamTexts, brk_step, htexts, ih]
      rfl

theorem Run.hookEvents_afterBrk (r : Run) (is : List ℤ) :
    (r.afterBrk is).hookEvents = (is.map brkCall).map HookCall.event ++ r.hookEvents :=
  List.map_append

theorem Run.addrs_afterBrk (r : Run) (is : List ℤ) :
    (r.afterBrk is).addrs
      = sightAddrs (sightAddrs [] (is.map hexText)) (streamTexts .start r.hookEvents) := by
  rw [addrs, addrTable_eq, hookEvents_afterBrk, streamTexts_append, openWalk_brk,
    streamTexts_brk, sightAddrs_append]

theorem Run.views_afterBrk (r : Run) (is : List ℤ) :
    views .start (r.afterBrk is).hookEvents = views .start r.hookEvents := by
  rw [hookEvents_afterBrk, views_append, views_brk, openWalk_brk, List.nil_append]

theorem Run.exited_afterBrk (r : Run) (is : List ℤ) : (r.afterBrk is).exited = r.exited := by
  have hno : (is.map brkCall).any (fun h => h.sc = .exitGroup ∧ h.phase = .enter) = false := by
    rw [List.any_map, List.any_eq_false]
    intro i _
    simp [brkCall]
  rw [exited, afterBrk, List.any_append, hno, Bool.false_or, exited]

theorem Run.sameOutput_afterBrk (r : Run) (is : List ℤ) : SameOutput r (r.afterBrk is) := by
  refine ⟨rfl, rfl, ?_, .refl _⟩
  rw [exitCode, exitCode, exited_afterBrk]
  rfl

/-- Addresses never run out. -/
theorem exists_fresh_addr (T : List PyStr) : ∃ z : ℤ, 2 ^ 20 ≤ z ∧ hexText z ∉ T := by
  by_contra hall
  have hmem : ∀ k : ℕ, hexText (2 ^ 20 + k) ∈ T := by
    intro k
    by_contra hk
    exact hall ⟨2 ^ 20 + k, by omega, hk⟩
  refine not_injective_infinite_finite (fun k : ℕ => (⟨_, hmem k⟩ : {x // x ∈ T})) ?_
  intro k l h
  have hkl := hexText_injective (Subtype.mk.inj h)
  omega

theorem mem_fdArgs {fds : List PyStr} {sc : PyStr} {args : List PyStr} {a : PyStr}
    (h : a ∈ fdArgs fds sc args) (ha : isAddr a) : a ∈ args := by
  cases args with
  | nil => exact h
  | cons b as =>
      simp only [fdArgs] at h
      split_ifs at h
      · rcases List.mem_cons.mp h with rfl | h
        · exact absurd ha (by rintro ⟨⟩)
        · exact List.mem_cons_of_mem b h
      · exact h

theorem HookCall.int_of_text {h : HookCall} {fds : List PyStr} {a : PyStr}
    (hmem : a ∈ eventTexts fds h.event) (ha : isAddr a) : ∃ i, hexText i = a := by
  have ofFmt : ∀ x : Option ℤ, fmt x = a → ∃ i, hexText i = a := by
    rintro x rfl
    obtain ⟨i, rfl, -⟩ := (isAddr_fmt x).mp ha
    exact ⟨i, rfl⟩
  have ofArgs : ∀ raw : List (Option ℤ), a ∈ raw.map fmt → ∃ i, hexText i = a := by
    intro raw hraw
    obtain ⟨x, -, hx⟩ := List.mem_map.mp hraw
    exact ofFmt x hx
  rw [eventTexts, List.mem_append] at hmem
  cases hp : h.phase with
  | enter =>
      simp only [event, hp, resultTexts, List.not_mem_nil, or_false] at hmem
      exact ofArgs h.raw (mem_fdArgs hmem ha)
  | exit =>
      simp only [event, hp] at hmem
      rcases hmem with hmem | hmem
      · exact ofArgs h.raw.dropLast (mem_fdArgs hmem ha)
      · rcases hl : h.raw.getLast? with - | x
        · simp [hl, resultTexts] at hmem
        · exact ofFmt x (by simpa [hl, resultTexts, eq_comm] using hmem)

/-- The addresses of a run are the texts of numbers. -/
theorem Run.exists_ints (r : Run) : ∃ is : List ℤ, is.map hexText = r.addrs := by
  have go : ∀ (hooks : List HookCall) (w : OpenWalk),
      ∀ a ∈ streamTexts w (hooks.map HookCall.event), isAddr a →
      ∃ i, hexText i = a := by
    intro hooks
    induction hooks with
    | nil => exact fun _ _ h => absurd h List.not_mem_nil
    | cons h hooks ih =>
        intro w a hmem ha
        rw [List.map_cons, streamTexts, List.mem_append] at hmem
        exact hmem.elim (fun hm => h.int_of_text hm ha) fun hm => ih _ a hm ha
  have hrange : r.addrs ∈ Set.range (List.map hexText) := by
    rw [Set.range_list_map]
    intro a hmem
    obtain ⟨htext, ha⟩ := r.mem_addrs.mp hmem
    exact go r.hooks .start a htext ha
  exact hrange

end ReSchema
