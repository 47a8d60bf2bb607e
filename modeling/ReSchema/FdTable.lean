/-
ReSchema/FdTable.lean

The table of descriptors, from its purpose.

A descriptor that an open for writing returned is named `FD_<k>` in the calls
that take it, `k` counting the descriptors returned before it.  `FdLaw` says
this of a stream without the walk over the open calls: by positions of entries
and exits (`ReturnedAt`).  `mem_walkTo_fds` connects the two.

The law keeps the literals of the standard descriptors, the pass does not: a
guest that closes one and opens a file for writing gets its number back, and
`fd_table_iff` says which runs suffer from it.
-/
import ReSchema.Variation

namespace ReSchema

open Py

/-! ### Opens that return -/

/-- Before position `n` an open call with write intent is entered, and none is entered or left
from there on. -/
def PendingAt (evs : List Event) (n : ℕ) : Prop :=
  ∃ i < n, ∃ e, evs[i]? = some e ∧ OpenEntry e ∧ writeIntent e.sc e.args = true ∧
    ∀ m, i < m → m < n → ∀ e', evs[m]? = some e' → ¬ OpenEntry e' ∧ ¬ OpenExit e'

/-- The exit at position `j` completes an open call with write intent, and returns `a`. -/
def ReturnedAt (evs : List Event) (j : ℕ) (a : PyStr) : Prop :=
  PendingAt evs j ∧
    ∃ e, evs[j]? = some e ∧ OpenExit e ∧ e.result = some (some a) ∧ py "0x" <+: a

/-- `a` is returned at position `j` and not before. -/
def FirstReturned (evs : List Event) (j : ℕ) (a : PyStr) : Prop :=
  ReturnedAt evs j a ∧ ∀ i < j, ¬ ReturnedAt evs i a

/-- The literals of the standard descriptors. -/
def stdFds : List PyStr := [py "0x0", py "0x1", py "0x2"]

/-- The name of the `k`-th descriptor. -/
def fdName (k : ℕ) : PyStr := py "FD_" ++ natText k

/-- Every call that takes a descriptor has it renamed exactly when it is none of the standard
ones and an open for writing has returned it, by the number of such descriptors returned
before; no other name of a descriptor stands there, and a standard one stays as it is. -/
def FdLaw (evs canon : List Event) : Prop :=
  ∀ (i : ℕ) (e : Event) (a : PyStr) (as : List PyStr),
    evs[i]? = some e → e.sc ∈ fdCarriers → e.args = a :: as →
    ∃ c b bs, canon[i]? = some c ∧ c.args = b :: bs ∧
      (∀ k, b = fdName k ↔ a ∉ stdFds ∧ ∃ j < i, FirstReturned evs j a ∧
        k = {x | x ∉ stdFds ∧ ∃ j' < j, ReturnedAt evs j' x}.ncard) ∧
      (py "FD_" <+: b → ∃ k, b = fdName k) ∧ (a ∈ stdFds → b = a)

/-- No call takes a descriptor that was returned with or after a standard one. -/
def NoStdReturned (evs : List Event) : Prop :=
  ∀ (i : ℕ) (e : Event) (a : PyStr) (as : List PyStr),
    evs[i]? = some e → e.sc ∈ fdCarriers → e.args = a :: as →
    ∀ j < i, FirstReturned evs j a → ∀ j' ≤ j, ∀ x, ReturnedAt evs j' x → x ∉ stdFds

/-! ### The walk, by positions -/

/-- The walk before position `n`. -/
def walkTo (evs : List Event) (n : ℕ) : OpenWalk := openWalk .start (evs.take n)

theorem walkTo_succ (evs : List Event) (n : ℕ) :
    walkTo evs (n + 1) = evs[n]?.elim (walkTo evs n) (walkTo evs n).step := by
  rw [walkTo, List.take_add_one, openWalk, List.foldl_append]
  cases evs[n]? <;> rfl

theorem pendingAt_succ_of_other {evs : List Event} {n : ℕ}
    (h : ∀ e, evs[n]? = some e → ¬ OpenEntry e ∧ ¬ OpenExit e) :
    PendingAt evs (n + 1) ↔ PendingAt evs n := by
  constructor
  · rintro ⟨i, hi, e, he, hentry, hwrite, hquiet⟩
    have hne : i ≠ n := by
      rintro rfl
      exact (h e he).1 hentry
    exact ⟨i, by omega, e, he, hentry, hwrite, fun m hm hmn => hquiet m hm (by omega)⟩
  · rintro ⟨i, hi, e, he, hentry, hwrite, hquiet⟩
    refine ⟨i, by omega, e, he, hentry, hwrite, fun m hm hmn => ?_⟩
    obtain rfl | hlt : m = n ∨ m < n := by omega
    · exact h
    · exact hquiet m hm hlt

theorem not_pendingAt_succ {evs : List Event} {n : ℕ} {e : Event} (he : evs[n]? = some e)
    (h : OpenExit e) : ¬ PendingAt evs (n + 1) := by
  rintro ⟨i, hi, e', he', hentry, -, hquiet⟩
  obtain rfl | hlt : i = n ∨ i < n := by omega
  · rw [he] at he'
    cases he'
    exact not_entry_of_exit h hentry
  · exact (hquiet n hlt (by omega) e he).2 h

theorem pendingAt_succ_of_entry {evs : List Event} {n : ℕ} {e : Event} (he : evs[n]? = some e)
    (h : OpenEntry e) : PendingAt evs (n + 1) ↔ writeIntent e.sc e.args = true := by
  constructor
  · rintro ⟨i, hi, e', he', -, hwrite, hquiet⟩
    obtain rfl | hlt : i = n ∨ i < n := by omega
    · rw [he] at he'
      cases he'
      exact hwrite
    · exact absurd h (hquiet n hlt (by omega) e he).1
  · exact fun hwrite => ⟨n, by omega, e, he, h, hwrite, fun m hm hmn => absurd hm (by omega)⟩

theorem walkTo_pending (evs : List Event) (n : ℕ) :
    (walkTo evs n).pending = true ↔ PendingAt evs n := by
  induction n with
  | zero => exact iff_of_false Bool.false_ne_true fun ⟨_, hi, _⟩ => absurd hi (by omega)
  | succ n ih =>
      rw [walkTo_succ]
      rcases he : evs[n]? with - | e
      · rw [pendingAt_succ_of_other (by simp [he])]
        exact ih
      · rw [Option.elim_some]
        by_cases hentry : OpenEntry e
        · rw [OpenWalk.step_entry hentry, pendingAt_succ_of_entry he hentry]
        by_cases hexit : OpenExit e
        · rw [OpenWalk.step_exit hexit]
          exact iff_of_false Bool.false_ne_true (not_pendingAt_succ he hexit)
        · rw [OpenWalk.step_other hentry hexit, ih, pendingAt_succ_of_other]
          rintro e' he'
          rw [he] at he'
          cases he'
          exact ⟨hentry, hexit⟩

/-- What the exit at `n` adds to the table. -/
theorem walkTo_fds_succ (evs : List Event) (n : ℕ) :
    (∃ a, ReturnedAt evs n a ∧ (walkTo evs (n + 1)).fds = sight (walkTo evs n).fds a) ∨
      (∀ a, ¬ ReturnedAt evs n a) ∧ (walkTo evs (n + 1)).fds = (walkTo evs n).fds := by
  rw [walkTo_succ]
  rcases he : evs[n]? with - | e
  · exact .inr ⟨fun a ⟨_, e, he', _⟩ => by simp [he] at he', rfl⟩
  rw [Option.elim_some]
  have hat : ∀ {a}, ReturnedAt evs n a → OpenExit e ∧ e.result = some (some a) ∧ py "0x" <+: a := by
    rintro a ⟨-, e', he', h⟩
    rw [he] at he'
    cases he'
    exact h
  -- only an exit that a write-intent entry waits for, with a hexadecimal result, is a sight
  by_cases hexit : OpenExit e
  · rw [OpenWalk.step_exit hexit]
    by_cases hpend : (walkTo evs n).pending = true
    · rw [if_pos hpend]
      rcases hres : e.result with - | - | a
      · exact .inr ⟨fun a h => by simpa [hres] using (hat h).2.1, rfl⟩
      · exact .inr ⟨fun a h => by simpa [hres] using (hat h).2.1, rfl⟩
      · by_cases hhex : (py "0x").isPrefixOf a = true
        · refine .inl ⟨a, ⟨(walkTo_pending evs n).mp hpend, e, he, hexit, hres,
            List.isPrefixOf_iff_prefix.mp hhex⟩, ?_⟩
          simp only [noteResult, hhex, if_true]
        · refine .inr ⟨fun b h => hhex ?_, ?_⟩
          · have hb := hat h
            rw [hres, Option.some.injEq, Option.some.injEq] at hb
            exact List.isPrefixOf_iff_prefix.mpr (hb.2.1 ▸ hb.2.2)
          · simp only [noteResult, hhex]
            rfl
    · rw [if_neg hpend]
      exact .inr ⟨fun a h => hpend ((walkTo_pending evs n).mpr h.1), rfl⟩
  · refine .inr ⟨fun a h => hexit (hat h).1, ?_⟩
    by_cases hentry : OpenEntry e
    · rw [OpenWalk.step_entry hentry]
    · rw [OpenWalk.step_other hentry hexit]

theorem ReturnedAt.unique {evs : List Event} {n : ℕ} {a b : PyStr} (ha : ReturnedAt evs n a)
    (hb : ReturnedAt evs n b) : a = b := by
  obtain ⟨-, e, he, -, hra, -⟩ := ha
  obtain ⟨-, e', he', -, hrb, -⟩ := hb
  rw [he] at he'
  cases he'
  rw [hra] at hrb
  simpa using hrb

/-- **The table holds the returned descriptors.** -/
theorem mem_walkTo_fds {evs : List Event} {n : ℕ} {a : PyStr} :
    a ∈ (walkTo evs n).fds ↔ ∃ j < n, ReturnedAt evs j a := by
  induction n with
  | zero => exact iff_of_false List.not_mem_nil fun ⟨_, hj, _⟩ => absurd hj (by omega)
  | succ n ih =>
      have hsplit : (∃ j < n + 1, ReturnedAt evs j a) ↔
          (∃ j < n, ReturnedAt evs j a) ∨ ReturnedAt evs n a := by
        constructor
        · rintro ⟨j, hj, h⟩
          obtain rfl | hlt : j = n ∨ j < n := by omega
          · exact .inr h
          · exact .inl ⟨j, hlt, h⟩
        · rintro (⟨j, hj, h⟩ | h)
          · exact ⟨j, by omega, h⟩
          · exact ⟨n, by omega, h⟩
      rw [hsplit]
      rcases walkTo_fds_succ evs n with ⟨b, hb, hfds⟩ | ⟨hnone, hfds⟩
      · rw [hfds, mem_sight, ih]
        exact or_congr_right ⟨fun h => h ▸ hb, fun h => h.unique hb⟩
      · rw [hfds, ih]
        exact ⟨.inl, fun h => h.resolve_right (hnone a)⟩

theorem nodup_walkTo_fds (evs : List Event) (n : ℕ) : (walkTo evs n).fds.Nodup := by
  induction n with
  | zero => exact List.nodup_nil
  | succ n ih =>
      rcases walkTo_fds_succ evs n with ⟨b, -, hfds⟩ | ⟨-, hfds⟩
      · exact hfds ▸ nodup_sight ih b
      · exact hfds ▸ ih

theorem prefix_walkTo_fds (evs : List Event) {n m : ℕ} (h : n ≤ m) :
    (walkTo evs n).fds <+: (walkTo evs m).fds := by
  induction m, h using Nat.le_induction with
  | base => exact List.prefix_refl _
  | succ m _ ih =>
      rcases walkTo_fds_succ evs m with ⟨b, -, hfds⟩ | ⟨-, hfds⟩
      · exact hfds ▸ ih.trans (prefix_sight _ b)
      · exact hfds ▸ ih

theorem exists_firstReturned {evs : List Event} {n : ℕ} {a : PyStr}
    (h : ∃ j < n, ReturnedAt evs j a) : ∃ j < n, FirstReturned evs j a := by
  classical
  have hex : ∃ j, ReturnedAt evs j a := h.imp fun _ hj => hj.2
  obtain ⟨j, hj, hat⟩ := h
  exact ⟨Nat.find hex, (Nat.find_min' hex hat).trans_lt hj, Nat.find_spec hex,
    fun i hi => Nat.find_min hex hi⟩

theorem FirstReturned.unique {evs : List Event} {i j : ℕ} {a : PyStr}
    (hi : FirstReturned evs i a) (hj : FirstReturned evs j a) : i = j := by
  by_contra hne
  rcases Nat.lt_or_gt_of_ne hne with hlt | hlt
  · exact hj.2 i hlt hi.1
  · exact hi.2 j hlt hj.1

/-- The number of a descriptor counts the descriptors returned before it. -/
theorem FirstReturned.ordinal_eq {evs : List Event} {n j : ℕ} {a : PyStr}
    (h : FirstReturned evs j a) (hj : j < n) :
    ordinal (walkTo evs n).fds a = {x | ∃ j' < j, ReturnedAt evs j' x}.ncard := by
  have hnot : a ∉ (walkTo evs j).fds := fun hmem => by
    obtain ⟨i, hi, hat⟩ := mem_walkTo_fds.mp hmem
    exact h.2 i hi hat
  have hsucc : (walkTo evs (j + 1)).fds = (walkTo evs j).fds ++ [a] := by
    rcases walkTo_fds_succ evs j with ⟨b, hb, hfds⟩ | ⟨hnone, -⟩
    · rw [hfds, ← h.1.unique hb, sight, if_neg hnot]
    · exact absurd h.1 (hnone a)
  have hsight : sight (walkTo evs j).fds a <+: (walkTo evs n).fds := by
    rw [sight, if_neg hnot, ← hsucc]
    exact prefix_walkTo_fds evs hj
  have hset : {x | ∃ j' < j, ReturnedAt evs j' x} = ((walkTo evs j).fds.toFinset : Set PyStr) := by
    ext x
    rw [Finset.mem_coe, List.mem_toFinset, mem_walkTo_fds]
    rfl
  rw [← ordinal_of_prefix hsight, ordinal_of_notMem hnot, hset, Set.ncard_coe_finset,
    List.toFinset_card_of_nodup (nodup_walkTo_fds evs j)]

/-! ### Calls that take a descriptor -/

theorem not_open_of_carrier {e : Event} (h : e.sc ∈ fdCarriers) : e.sc ∉ openFamily := by
  simp only [fdCarriers, List.mem_cons, List.not_mem_nil, or_false] at h
  rcases h with h | h | h | h <;> rw [h] <;> decide

theorem fdName_eq_token (fds : List PyStr) (a : PyStr) : token "FD" fds a = fdName (ordinal fds a) := rfl

theorem fdName_inj {k l : ℕ} : fdName k = fdName l ↔ k = l := by
  rw [fdName, fdName, List.append_cancel_left_eq, natText_inj]

/-- The texts of a hook are no names of descriptors. -/
theorem head_fmt (x : Option ℤ) : (fmt x).head? ≠ some (ch 'F') := by
  cases x with
  | none => decide
  | some i =>
      unfold fmt hexText
      dsimp only
      split
      · exact (by decide : some (ch '-') ≠ some (ch 'F'))
      · exact (by decide : some (ch '0') ≠ some (ch 'F'))

theorem not_fd_prefix {b : PyStr} (h : b.head? ≠ some (ch 'F')) : ¬ py "FD_" <+: b := by
  rintro ⟨r, rfl⟩
  exact h rfl

theorem head_canonArg {a : PyStr} (h : a.head? ≠ some (ch 'F')) (T : List PyStr) :
    (canonArg T a).head? ≠ some (ch 'F') := by
  unfold canonArg
  split
  · exact (by decide : some (ch 'A') ≠ some (ch 'F'))
  · exact h

theorem canonArg_std {a : PyStr} (T : List PyStr) (h : a ∈ stdFds) : canonArg T a = a := by
  have hno : ∀ a ∈ stdFds, isAddr a = false := by decide
  rw [canonArg, hno a h]
  rfl

theorem canonArg_fdName (T : List PyStr) (k : ℕ) : canonArg T (fdName k) = fdName k := rfl

section Carriers

variable {F : Type} [Runtime F] {r : Run}

/-- What is no fault is a hook. -/
theorem mem_hooks {e : Event} (he : e ∈ (record r).events)
    (hno : e.sc ∉ [py "timeout", py "crash"]) : e ∈ r.hookEvents := by
  rcases List.mem_append.mp he with he | he
  · exact he
  · exact absurd (List.mem_pair.mpr (Run.sc_faults he)) hno

theorem not_fault_of_carrier {e : Event} (hc : e.sc ∈ fdCarriers) :
    e.sc ∉ [py "timeout", py "crash"] := by
  intro h
  rcases List.mem_pair.mp h with h | h <;> rw [h] at hc <;> exact absurd hc (by decide)

/-- The calls that take a descriptor are hooks. -/
theorem carrier_mem_hooks {e : Event} (he : e ∈ (record r).events) (hc : e.sc ∈ fdCarriers) :
    e ∈ r.hookEvents :=
  mem_hooks he (not_fault_of_carrier hc)

theorem head_hook {e : Event} (he : e ∈ r.hookEvents) : ∀ a ∈ e.args, a.head? ≠ some (ch 'F') := by
  obtain ⟨h, -, rfl⟩ := List.mem_map.mp he
  intro a ha
  obtain ⟨x, rfl⟩ : ∃ x, fmt x = a := by
    cases hp : h.phase with
    | enter =>
        obtain ⟨x, -, hx⟩ := List.mem_map.mp (by simpa [HookCall.event, hp] using ha)
        exact ⟨x, hx⟩
    | exit =>
        simp only [HookCall.event, hp] at ha
        obtain ⟨x, -, hx⟩ := List.mem_map.mp ha
        exact ⟨x, hx⟩
  exact head_fmt x

theorem head_carrier {e : Event} (he : e ∈ (record r).events) (hc : e.sc ∈ fdCarriers) :
    ∀ a ∈ e.args, a.head? ≠ some (ch 'F') :=
  head_hook (carrier_mem_hooks he hc)

theorem relabelAll_getElem? (T : List PyStr) (w : OpenWalk) (evs : List Event) (i : ℕ) :
    (relabelAll T w evs)[i]? =
      evs[i]?.map (relabel T (openWalk w (evs.take (i + 1))).fds) := by
  induction evs generalizing w i with
  | nil => simp [relabelAll]
  | cons e evs ih =>
      cases i with
      | zero => rfl
      | succ i => exact ih (w.step e) i

/-- The event of a hook is relabelled by the table after it. -/
theorem canonicalize_hook {i : ℕ} {e : Event} (he : (record r).events[i]? = some e)
    (hno : e.sc ∉ [py "timeout", py "crash"]) :
    (canonicalize F (record r)).events[i]? =
      some (relabel r.addrs (walkTo (record r).events (i + 1)).fds e) := by
  obtain ⟨s, hs⟩ := canonicalize_events (F := F) (r := r) (List.prefix_refl _)
  have hev : (record r).events = r.hookEvents ++ r.faults := rfl
  have hlt : i < r.hookEvents.length := by
    by_contra hle
    rw [hev, List.getElem?_append_right (by omega)] at he
    exact hno (List.mem_pair.mpr (Run.sc_faults (List.mem_of_getElem? he)))
  have hwalk : walkTo (record r).events (i + 1) = openWalk .start (r.hookEvents.take (i + 1)) := by
    rw [walkTo, hev, List.take_append_of_le_length hlt]
  rw [hev, List.getElem?_append_left hlt] at he
  rw [hs, List.getElem?_append_left (by rw [length_relabelAll]; exact hlt), relabelAll_getElem?,
    he, Option.map_some, hwalk]

/-- A call that takes a descriptor is relabelled by the table before it. -/
theorem canonicalize_carrier {i : ℕ} {e : Event} (he : (record r).events[i]? = some e)
    (hc : e.sc ∈ fdCarriers) :
    (canonicalize F (record r)).events[i]? =
      some (relabel r.addrs (walkTo (record r).events i).fds e) := by
  rw [canonicalize_hook he (not_fault_of_carrier hc), walkTo_succ, he, Option.elim_some,
    step_of_not_open (not_open_of_carrier hc)]

end Carriers

/-! ### When the law holds -/

theorem finite_returned (evs : List Event) (j : ℕ) :
    {x | ∃ j' < j, ReturnedAt evs j' x}.Finite :=
  ((walkTo evs j).fds.finite_toSet).subset fun _ hx => mem_walkTo_fds.mpr hx

/-- The number that the law wants is the one the pass gives exactly when no standard descriptor
was returned before. -/
theorem ncard_eq_iff (evs : List Event) (j : ℕ) :
    {x | x ∉ stdFds ∧ ∃ j' < j, ReturnedAt evs j' x}.ncard =
        {x | ∃ j' < j, ReturnedAt evs j' x}.ncard ↔
      ∀ j' < j, ∀ x, ReturnedAt evs j' x → x ∉ stdFds := by
  have hsub : {x | x ∉ stdFds ∧ ∃ j' < j, ReturnedAt evs j' x} ⊆
      {x | ∃ j' < j, ReturnedAt evs j' x} := fun _ hx => hx.2
  constructor
  · intro hcard j' hj' x hx
    have heq := Set.eq_of_subset_of_ncard_le hsub hcard.ge (finite_returned evs j)
    have hmem : x ∈ {x | ∃ j' < j, ReturnedAt evs j' x} := ⟨j', hj', hx⟩
    rw [← heq] at hmem
    exact hmem.1
  · intro hall
    congr 1
    ext x
    exact ⟨fun hx => hx.2, fun ⟨j', hj', hx⟩ => ⟨hall j' hj' x hx, j', hj', hx⟩⟩

/-- The law at one call that takes a descriptor. -/
theorem fdLaw_at {r : Run} {i : ℕ} {e : Event} {a : PyStr} {as : List PyStr}
    (he : (record r).events[i]? = some e) (hc : e.sc ∈ fdCarriers) (hargs : e.args = a :: as)
    (F : Type) [Runtime F] :
    (∃ c b bs, (canonicalize F (record r)).events[i]? = some c ∧ c.args = b :: bs ∧
        (∀ k, b = fdName k ↔ a ∉ stdFds ∧ ∃ j < i, FirstReturned (record r).events j a ∧
          k = {x | x ∉ stdFds ∧ ∃ j' < j, ReturnedAt (record r).events j' x}.ncard) ∧
        (py "FD_" <+: b → ∃ k, b = fdName k) ∧ (a ∈ stdFds → b = a)) ↔
      ∀ j < i, FirstReturned (record r).events j a →
        ∀ j' ≤ j, ∀ x, ReturnedAt (record r).events j' x → x ∉ stdFds := by
  set evs := (record r).events with hevs
  have hcanon := canonicalize_carrier (F := F) he hc
  -- the argument is in the table just where some open before the call returned it
  by_cases hmem : a ∈ (walkTo evs i).fds
  · obtain ⟨j, hj, hfirst⟩ := exists_firstReturned (mem_walkTo_fds.mp hmem)
    have hb : (relabel r.addrs (walkTo evs i).fds e).args =
        fdName {x | ∃ j' < j, ReturnedAt evs j' x}.ncard :: as.map (canonArg r.addrs) := by
      simp only [relabel, hargs, fdArgs, hc, hmem, and_self, if_true, List.map_cons,
        fdName_eq_token, canonArg_fdName, hfirst.ordinal_eq hj]
    constructor
    · -- the name counts every literal before it, the law only those that are not standard:
      -- the counts agree exactly when there are no others
      rintro ⟨c, b, bs, hcc, hcargs, hlaw, -⟩ j₁ - hfirst₁ j' hj' x hx
      obtain rfl := hfirst₁.unique hfirst
      rw [hcanon, Option.some.injEq] at hcc
      rw [← hcc, hb, List.cons.injEq] at hcargs
      obtain ⟨hstd, j₂, -, hfirst₂, hcard⟩ := (hlaw _).mp hcargs.1.symm
      obtain rfl := hfirst₂.unique hfirst
      obtain rfl | hlt : j' = j₂ ∨ j' < j₂ := by omega
      · rwa [hx.unique hfirst.1]
      · exact (ncard_eq_iff evs j₂).mp hcard.symm j' hlt x hx
    · intro hall
      have hno := hall j hj hfirst
      refine ⟨_, _, _, hcanon, hb, fun k => ?_, fun _ => ⟨_, rfl⟩,
        fun hstd => absurd hstd (hno j le_rfl a hfirst.1)⟩
      have hcard := (ncard_eq_iff evs j).mpr fun j' hj' => hno j' hj'.le
      rw [fdName_inj]
      constructor
      · rintro rfl
        exact ⟨hno j le_rfl a hfirst.1, j, hj, hfirst, hcard.symm⟩
      · rintro ⟨-, j₂, -, hfirst₂, rfl⟩
        obtain rfl := hfirst₂.unique hfirst
        exact hcard.symm
  · have hnone : ∀ j < i, ¬ FirstReturned evs j a := fun j hj h =>
      hmem (mem_walkTo_fds.mpr ⟨j, hj, h.1⟩)
    refine iff_of_true ?_ fun j hj h => absurd h (hnone j hj)
    have hb : (relabel r.addrs (walkTo evs i).fds e).args =
        canonArg r.addrs a :: as.map (canonArg r.addrs) := by
      simp only [relabel, hargs, fdArgs, hmem, and_false, if_false, List.map_cons]
    -- no argument on the way into the pass starts like a name, so none is taken for one
    have hhead : a.head? ≠ some (ch 'F') :=
      head_carrier (List.mem_of_getElem? he) hc a (hargs ▸ List.mem_cons_self)
    have hfd := not_fd_prefix (head_canonArg hhead r.addrs)
    refine ⟨_, _, _, hcanon, hb, fun k => ?_, fun h => absurd h hfd, canonArg_std r.addrs⟩
    refine iff_of_false (fun h => hfd (h ▸ List.prefix_append _ _)) ?_
    rintro ⟨-, j, hj, h, -⟩
    exact hnone j hj h

/-! ### Opens for reading -/

/-- The names of descriptors that the calls of a canonical stream take. -/
def carrierTokens (evs : List Event) : List (Option PyStr) :=
  (evs.filter fun e => e.sc ∈ fdCarriers).map fun e =>
    e.args.head?.filter fun b => (py "FD_").isPrefixOf b

/-- The same, from the stream before the pass. -/
def tokensAlong : OpenWalk → List Event → List (Option PyStr)
  | _, [] => []
  | w, e :: evs =>
      if e.sc ∈ fdCarriers then
        ((e.args.head?.filter fun a => a ∈ w.fds).map (token "FD" w.fds)) :: tokensAlong w evs
      else tokensAlong (w.step e) evs

theorem tokensAlong_append (w : OpenWalk) (xs ys : List Event) :
    tokensAlong w (xs ++ ys) = tokensAlong w xs ++ tokensAlong (openWalk w xs) ys := by
  induction xs generalizing w with
  | nil => rfl
  | cons e xs ih =>
      by_cases h : e.sc ∈ fdCarriers
      · have hstep : openWalk w (e :: xs) = openWalk w xs := by
          rw [openWalk, List.foldl_cons, step_of_not_open (not_open_of_carrier h)]
          rfl
        simp only [List.cons_append, tokensAlong, h, if_true, ih, hstep]
      · simp only [List.cons_append, tokensAlong, h, if_false, ih]
        rfl

theorem not_carrier_of_open {e : Event} (h : e.sc ∈ openFamily) : e.sc ∉ fdCarriers :=
  fun hc => not_open_of_carrier hc h

theorem tokensAlong_insertOpen {enter exit : Event} {mid : List Event}
    (h : ReadOpen enter exit mid) {pre : List Event} (hpre : insideOpen pre = false)
    (post : List Event) :
    tokensAlong .start (pre ++ enter :: (mid ++ exit :: post)) =
      tokensAlong .start (pre ++ (mid ++ post)) := by
  have hpending := pending_of_not_inside hpre
  have hexit : exit.sc ∈ openFamily := h.sc_exit ▸ h.sc_enter
  rw [tokensAlong_append, tokensAlong_append, tokensAlong,
    if_neg (not_carrier_of_open h.sc_enter), h.step_enter hpending, tokensAlong_append,
    tokensAlong_append, openWalk_of_not_open h.mid_other, tokensAlong,
    if_neg (not_carrier_of_open hexit), h.step_exit hpending]

theorem carrierTokens_relabelAll {evs : List Event}
    (h : ∀ e ∈ evs, e.sc ∈ fdCarriers → ∀ a ∈ e.args, a.head? ≠ some (ch 'F')) (T : List PyStr)
    (w : OpenWalk) : carrierTokens (relabelAll T w evs) = tokensAlong w evs := by
  induction evs generalizing w with
  | nil => rfl
  | cons e evs ih =>
      obtain ⟨he, hevs⟩ := List.forall_mem_cons.mp h
      have htail := ih hevs (w.step e)
      rw [carrierTokens] at htail
      by_cases hc : e.sc ∈ fdCarriers
      · have hstep := step_of_not_open (not_open_of_carrier hc) w
        -- a carrier leaves the table alone, and its first argument is named if it is in there
        have hhead : ((relabel T w.fds e).args.head?.filter fun b => (py "FD_").isPrefixOf b) =
            (e.args.head?.filter fun a => a ∈ w.fds).map (token "FD" w.fds) := by
          rcases hargs : e.args with - | ⟨a, as⟩
          · simp [relabel, hargs, fdArgs]
          · by_cases hmem : a ∈ w.fds
            · have hfd : (py "FD_").isPrefixOf (fdName (ordinal w.fds a)) = true :=
                List.isPrefixOf_iff_prefix.mpr (List.prefix_append _ _)
              simp [relabel, hargs, fdArgs, hc, hmem, fdName_eq_token, canonArg_fdName, hfd,
                Option.filter_some]
            · have hfd : (py "FD_").isPrefixOf (canonArg T a) = false := by
                rw [Bool.eq_false_iff, Ne, List.isPrefixOf_iff_prefix]
                exact not_fd_prefix (head_canonArg (he hc a (hargs ▸ List.mem_cons_self)) T)
              simp [relabel, hargs, fdArgs, hmem, hfd, Option.filter_some]
        have hsc : (relabel T w.fds e).sc ∈ fdCarriers := hc
        rw [hstep] at htail
        rw [relabelAll, hstep, tokensAlong, if_pos hc, carrierTokens,
          List.filter_cons_of_pos (by simpa using hsc), List.map_cons, hhead, htail]
      · have hsc : (relabel T (w.step e).fds e).sc ∉ fdCarriers := hc
        rw [relabelAll, tokensAlong, if_neg hc, carrierTokens,
          List.filter_cons_of_neg (by simpa using hsc), htail]

theorem carrierTokens_record (F : Type) [Runtime F] (r : Run) :
    carrierTokens (canonicalize F (record r)).events = tokensAlong .start (record r).events := by
  obtain ⟨s, hs⟩ := canonicalize_events (F := F) (r := r) (List.prefix_refl _)
  have hev : (record r).events = r.hookEvents ++ r.faults := rfl
  have hnone : ∀ e ∈ r.faults, e.sc ∉ fdCarriers := fun e he => by
    rcases Run.sc_faults he with h | h <;> rw [h] <;> decide
  have hcanon : carrierTokens (canonEvents F s r.faults) = [] := by
    rw [carrierTokens, List.map_eq_nil_iff, List.filter_eq_nil_iff]
    intro e he
    obtain ⟨e', he', hsc, -⟩ := canonEvents_sc he
    rw [← hsc]
    simpa using hnone e' he'
  have hfaults : ∀ w evs, (∀ e ∈ evs, e.sc ∉ fdCarriers) → tokensAlong w evs = [] := by
    intro w evs h
    induction evs generalizing w with
    | nil => rfl
    | cons e evs ih =>
        obtain ⟨he, hevs⟩ := List.forall_mem_cons.mp h
        rw [tokensAlong, if_neg he, ih _ hevs]
  have hsplit : ∀ xs ys, carrierTokens (xs ++ ys) = carrierTokens xs ++ carrierTokens ys := by
    simp [carrierTokens]
  have hhead : ∀ e ∈ r.hookEvents, e.sc ∈ fdCarriers → ∀ a ∈ e.args, a.head? ≠ some (ch 'F') :=
    fun e he => head_carrier (List.mem_append_left _ he)
  rw [hs, hsplit, hcanon, carrierTokens_relabelAll hhead, hev, tokensAlong_append,
    hfaults _ _ hnone]

/-- Complete opens for reading, inserted outside the other open calls, change no name of a
descriptor in the calls that take one. -/
def ReadOpensKeepTokens (F : Type) [Runtime F] (r : Run) : Prop :=
  ∀ (r' : Run) (pre mid post : List Event) (enter exit : Event),
    (record r).events = pre ++ (mid ++ post) →
    (record r').events = pre ++ enter :: (mid ++ exit :: post) →
    ReadOpen enter exit mid → insideOpen pre = false →
    carrierTokens (canonicalize F (record r)).events =
      carrierTokens (canonicalize F (record r')).events

/-- **The table of descriptors.**  A recorded run keeps the law exactly when no call takes a
descriptor that was returned with or after a standard one.  Opens for reading never matter. -/
theorem fd_table_iff (F : Type) [Runtime F] (r : Run) :
    (FdLaw (record r).events (canonicalize F (record r)).events ↔
      NoStdReturned (record r).events) ∧ ReadOpensKeepTokens F r := by
  refine ⟨⟨fun h i e a as he hc hargs => (fdLaw_at he hc hargs F).mp (h i e a as he hc hargs),
    fun h i e a as he hc hargs => (fdLaw_at he hc hargs F).mpr (h i e a as he hc hargs)⟩, ?_⟩
  intro r' pre mid post enter exit hr hr' hopen hpre
  rw [carrierTokens_record, carrierTokens_record, hr, hr', tokensAlong_insertOpen hopen hpre]

/-- A run that closes its standard output, opens a file for writing in its place, and writes. -/
def reopenRun : Run where
  binary := py "/work/model"
  argv := []
  stdin := []
  out := []
  err := []
  hooks := [⟨.close, .enter, [some 1]⟩, ⟨.close, .exit, [some 1, some 0]⟩,
    ⟨.open, .enter, [some 0x400000, some 0x241, some 0x1b6]⟩,
    ⟨.open, .exit, [some 0x400000, some 0x241, some 0x1b6, some 1]⟩,
    ⟨.write, .enter, [some 1, some 0x401000, some 5]⟩]
  ending := .finished 0
  files := []
  nodup_files := List.nodup_nil

/-- Its write is to the first descriptor opened for writing, by the canonical trace, and no
longer to standard output. -/
theorem fdLaw_not_always :
    ¬ ∀ r : Run, FdLaw (record r).events (canonicalize ZeroFloat (record r)).events := by
  intro h
  obtain ⟨c, b, bs, hc, hb, -, -, hstd⟩ := h reopenRun 4
    ⟨py "enter", py "write", [py "0x1", py "0x401000", py "0x5"], none⟩ (py "0x1")
    [py "0x401000", py "0x5"] (by decide +kernel) (by decide) rfl
  have hargs : ((canonicalize ZeroFloat (record reopenRun)).events[4]?.bind
      fun c => c.args.head?) = some (fdName 0) := by decide +kernel
  rw [hc, Option.bind_some, hb, hstd (by decide), List.head?_cons, Option.some.injEq] at hargs
  exact absurd hargs (by decide)

end ReSchema
