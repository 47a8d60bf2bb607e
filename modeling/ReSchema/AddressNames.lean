/-
ReSchema/AddressNames.lean

Canonicalisation forgets the names of addresses, and only the names.

A renaming of addresses is an embedding of the address-shaped texts in
themselves; it acts on the arguments and results of a trace that are wholly
such a text.  The pass over the renamed events goes through the renamed tables
and gives out the same ordinals (`CanonState.step_rename`), unless the renaming
touches the flags of an open call, which the pass reads as a number.

In the other direction an address has an ordinal (`canonicalize_addr`), which
determines it (`ordinal_of_addrName`).  Both hold of every trace, whatever its
texts are.
-/
import ReSchema.Canonical
import ReSchema.Py.Interpreter

namespace ReSchema

open Py

/-! ### Renamings -/

/-- The address-shaped texts. -/
abbrev Address := {a : PyStr // isAddr a = true}

/-- The renaming on all texts: it leaves those alone that are no address. -/
def renameText (ρ : Address ↪ Address) (a : PyStr) : PyStr :=
  if h : isAddr a = true then (ρ ⟨a, h⟩).1 else a

/-- The event with its addresses renamed. -/
def Event.rename (ρ : Address ↪ Address) (e : Event) : Event :=
  { e with
    args := e.args.map (renameText ρ)
    result := e.result.map (Option.map (renameText ρ)) }

/-- The trace with the addresses of its events renamed. -/
def Trace.rename (ρ : Address ↪ Address) (t : Trace) : Trace :=
  { t with events := t.events.map (Event.rename ρ) }

/-- The renaming leaves the flags of the call alone, if it is an open call with flags. -/
def KeepsFlags (ρ : Address ↪ Address) (e : Event) : Prop :=
  e.sc ∈ [py "openat", py "open"] →
    ∀ a : Address, e.args[flagsIndex e.sc]? = some a.1 → ρ a = a

section Rename

variable {ρ : Address ↪ Address}

@[simp] theorem isAddr_renameText (a : PyStr) : isAddr (renameText ρ a) = isAddr a := by
  unfold renameText
  split_ifs with h
  · rw [(ρ ⟨a, h⟩).2, h]
  · rfl

theorem renameText_of_not_addr {a : PyStr} (h : isAddr a = false) : renameText ρ a = a :=
  dif_neg (by simp [h])

theorem renameText_injective : Function.Injective (renameText ρ) := by
  intro a b hab
  have haddr : isAddr a = isAddr b := by
    rw [← isAddr_renameText (ρ := ρ) a, hab, isAddr_renameText]
  by_cases ha : isAddr a = true
  · have hb : isAddr b = true := haddr ▸ ha
    rw [renameText, dif_pos ha, renameText, dif_pos hb] at hab
    exact congrArg Subtype.val (ρ.injective (Subtype.ext hab))
  · have hb : ¬ isAddr b = true := haddr ▸ ha
    rwa [renameText, dif_neg ha, renameText, dif_neg hb] at hab

/-- An address starts with `0x`. -/
theorem hex_prefix_of_addr {a : PyStr} (h : isAddr a = true) : (py "0x").isPrefixOf a = true := by
  rcases a with - | ⟨z, - | ⟨x, r⟩⟩
  · exact absurd h (by decide)
  · exact absurd h Bool.false_ne_true
  · simp only [isAddr, Bool.and_eq_true] at h
    obtain ⟨⟨⟨hz, hx⟩, -⟩, -⟩ := h
    rw [eq_of_beq hz, eq_of_beq hx]
    rfl

theorem hex_prefix_renameText (a : PyStr) :
    (py "0x").isPrefixOf (renameText ρ a) = (py "0x").isPrefixOf a := by
  by_cases h : isAddr a = true
  · have h' : isAddr (renameText ρ a) = true := by rw [isAddr_renameText, h]
    rw [hex_prefix_of_addr h, hex_prefix_of_addr h']
  · rw [renameText_of_not_addr (Bool.eq_false_iff.mpr h)]

theorem token_rename (label : String) (T : List PyStr) (a : PyStr) :
    token label (T.map (renameText ρ)) (renameText ρ a) = token label T a := by
  rw [token, token, ordinal_map renameText_injective]

/-! ### One event -/

/-- The state with the addresses in its tables renamed. -/
def CanonState.rename (ρ : Address ↪ Address) (s : CanonState) : CanonState :=
  ⟨⟨s.opens.fds.map (renameText ρ), s.opens.pending⟩, s.addrs.map (renameText ρ), s.paths⟩

theorem writeIntent_rename {e : Event} (h : KeepsFlags ρ e) (hopen : e.sc ∈ openFamily) :
    writeIntent e.sc (e.args.map (renameText ρ)) = writeIntent e.sc e.args := by
  unfold writeIntent
  by_cases hcreat : e.sc = py "creat"
  · rw [if_pos hcreat, if_pos hcreat]
  · have hsc : e.sc ∈ [py "openat", py "open"] := by
      simp only [openFamily, List.mem_cons, List.not_mem_nil, or_false] at hopen ⊢
      tauto
    have hflags : (e.args.map (renameText ρ))[flagsIndex e.sc]? = e.args[flagsIndex e.sc]? := by
      rw [List.getElem?_map]
      rcases hget : e.args[flagsIndex e.sc]? with - | a
      · rfl
      · rw [Option.map_some, Option.some.injEq]
        by_cases ha : isAddr a = true
        · rw [renameText, dif_pos ha, h hsc ⟨a, ha⟩ hget]
        · exact renameText_of_not_addr (Bool.eq_false_iff.mpr ha)
    rw [if_neg hcreat, if_neg hcreat, hflags]

theorem noteResult_rename (fds : List PyStr) (res : Option (Option PyStr)) :
    noteResult (fds.map (renameText ρ)) (res.map (Option.map (renameText ρ))) =
      (noteResult fds res).map (renameText ρ) := by
  rcases res with - | - | a
  · rfl
  · rfl
  · simp only [Option.map_some, noteResult, hex_prefix_renameText]
    split_ifs
    · exact sight_map renameText_injective fds a
    · rfl

theorem openStep_rename {e : Event} (h : KeepsFlags ρ e) (s : CanonState) :
    (s.rename ρ).opens.step (e.rename ρ) =
      ⟨(s.opens.step e).fds.map (renameText ρ), (s.opens.step e).pending⟩ := by
  have hsc : (e.rename ρ).sc = e.sc := rfl
  by_cases henter : OpenEntry e
  · have henter' : OpenEntry (e.rename ρ) := henter
    rw [OpenWalk.step_entry henter', OpenWalk.step_entry henter, hsc]
    exact congrArg _ (writeIntent_rename h henter.1)
  by_cases hexit : OpenExit e
  · have hexit' : OpenExit (e.rename ρ) := hexit
    rw [OpenWalk.step_exit hexit', OpenWalk.step_exit hexit]
    by_cases hp : s.opens.pending = true
    · simp only [Event.rename, CanonState.rename, hp, if_true, noteResult_rename]
    · simp only [CanonState.rename, hp, Bool.false_eq_true, if_false]
  · have henter' : ¬ OpenEntry (e.rename ρ) := henter
    have hexit' : ¬ OpenExit (e.rename ρ) := hexit
    rw [OpenWalk.step_other henter' hexit', OpenWalk.step_other henter hexit]
    rfl

theorem not_addr_token_fd (T : List PyStr) (a : PyStr) : isAddr (token "FD" T a) = false := rfl

theorem fdArgs_rename (fds : List PyStr) (sc : PyStr) (args : List PyStr) :
    fdArgs (fds.map (renameText ρ)) sc (args.map (renameText ρ)) =
      (fdArgs fds sc args).map (renameText ρ) := by
  rcases args with - | ⟨a, as⟩
  · rfl
  · have hmem : renameText ρ a ∈ fds.map (renameText ρ) ↔ a ∈ fds :=
      List.mem_map_of_injective renameText_injective
    simp only [List.map_cons, fdArgs, hmem]
    split_ifs
    · rw [token_rename, List.map_cons, renameText_of_not_addr (not_addr_token_fd fds a)]
    · rfl

section Pass

variable {F : Type} [Runtime F]

theorem canonArgs_rename (A P : List PyStr) (as : List PyStr) :
    canonArgs F (A.map (renameText ρ)) P (as.map (renameText ρ)) =
      ((canonArgs F A P as).1.map (renameText ρ), (canonArgs F A P as).2) := by
  induction as generalizing A P with
  | nil => rfl
  | cons a as ih =>
      by_cases ha : isAddr a = true
      · simp only [List.map_cons, canonArgs, isAddr_renameText, ha, if_true, token_rename,
          sight_map renameText_injective, ih]
      · have hsame := renameText_of_not_addr (ρ := ρ) (Bool.eq_false_iff.mpr ha)
        simp only [List.map_cons, canonArgs, hsame, ha, Bool.false_eq_true, if_false, ih]

theorem canonResult_rename (A : List PyStr) (res : Option (Option PyStr)) :
    canonResult (A.map (renameText ρ)) (res.map (Option.map (renameText ρ))) =
      ((canonResult A res).1.map (renameText ρ), (canonResult A res).2) := by
  rcases res with - | - | a
  · rfl
  · rfl
  · by_cases ha : isAddr a = true
    · simp only [Option.map_some, canonResult, isAddr_renameText, ha, if_true, token_rename,
        sight_map renameText_injective]
    · have hsame := renameText_of_not_addr (ρ := ρ) (Bool.eq_false_iff.mpr ha)
      simp only [Option.map_some, canonResult, hsame, ha, Bool.false_eq_true, if_false]

theorem CanonState.step_rename {e : Event} (h : KeepsFlags ρ e) (s : CanonState) :
    (s.rename ρ).step F (e.rename ρ) = ((s.step F e).1.rename ρ, (s.step F e).2) := by
  have hopens := openStep_rename h s
  have hargs := canonArgs_rename (F := F) (ρ := ρ) s.addrs s.paths
    (fdArgs (s.opens.step e).fds e.sc e.args)
  simp only [CanonState.step, hopens]
  simp only [Event.rename, CanonState.rename, fdArgs_rename, hargs, canonResult_rename]

theorem canonEvents_rename {evs : List Event} (h : ∀ e ∈ evs, KeepsFlags ρ e) (s : CanonState) :
    canonEvents F (s.rename ρ) (evs.map (Event.rename ρ)) = canonEvents F s evs := by
  induction evs generalizing s with
  | nil => rfl
  | cons e evs ih =>
      obtain ⟨he, hevs⟩ := List.forall_mem_cons.mp h
      rw [List.map_cons, canonEvents, CanonState.step_rename he, ih hevs, canonEvents]

theorem canonicalize_rename {t : Trace} (h : ∀ e ∈ t.events, KeepsFlags ρ e) :
    canonicalize F (t.rename ρ) = canonicalize F t := by
  have hstart : CanonState.init.rename ρ = CanonState.init := rfl
  have hevents := canonEvents_rename (F := F) h .init
  rw [hstart] at hevents
  simp only [canonicalize, Trace.rename, hevents]

end Pass

end Rename

/-! ### Ordinals determine addresses -/

section Ordinals

variable {F : Type} [Runtime F]

theorem canonArgs_addrs (A P : List PyStr) (as : List PyStr) :
    (canonArgs F A P as).1 = sightAddrs A as := by
  induction as generalizing A P with
  | nil => rfl
  | cons a as ih =>
      rw [sightAddrs_cons]
      by_cases ha : isAddr a = true
      · simp only [canonArgs, ha, if_true, ih]
      · simp only [canonArgs, ha, Bool.false_eq_true, if_false, ih]

/-- An address among the arguments gets its name from any later table. -/
theorem canonArgs_getElem? {A P : List PyStr} {as : List PyStr} {T : List PyStr}
    (hT : sightAddrs A as <+: T) {p : ℕ} {x : PyStr} (hx : as[p]? = some x)
    (haddr : isAddr x = true) : (canonArgs F A P as).2.2[p]? = some (token "ADDR" T x) := by
  induction as generalizing A P p with
  | nil => simp at hx
  | cons a as ih =>
      rw [sightAddrs_cons] at hT
      cases p with
      | zero =>
          obtain rfl : a = x := by simpa using hx
          rw [if_pos haddr] at hT
          simp only [canonArgs, haddr, if_true, List.getElem?_cons_zero,
            token_of_prefix ((prefix_sightAddrs _ _).trans hT)]
      | succ p =>
          rw [List.getElem?_cons_succ] at hx
          by_cases ha : isAddr a = true
          · rw [if_pos ha] at hT
            simp only [canonArgs, ha, if_true, List.getElem?_cons_succ, ih hT hx]
          · rw [if_neg ha] at hT
            simp only [canonArgs, ha, Bool.false_eq_true, if_false, List.getElem?_cons_succ,
              ih hT hx]

theorem canonResult_addrs (A : List PyStr) (res : Option (Option PyStr)) :
    A <+: (canonResult A res).1 := by
  rcases res with - | - | a
  · exact List.prefix_refl A
  · exact List.prefix_refl A
  · by_cases ha : isAddr a = true
    · simp only [canonResult, ha, if_true]
      exact prefix_sight A a
    · simp only [canonResult, ha, Bool.false_eq_true, if_false]
      exact List.prefix_refl A

theorem prefix_run_addrs (s : CanonState) (evs : List Event) :
    s.addrs <+: (s.run F evs).addrs := by
  induction evs generalizing s with
  | nil => exact List.prefix_refl _
  | cons e evs ih =>
      have hstep : s.addrs <+: (s.step F e).1.addrs := by
        refine List.IsPrefix.trans ?_ (canonResult_addrs _ e.result)
        rw [canonArgs_addrs]
        exact prefix_sightAddrs _ _
      exact hstep.trans (ih _)

theorem canonEvents_getElem? (s : CanonState) (evs : List Event) (i : ℕ) :
    (canonEvents F s evs)[i]? =
      evs[i]?.map fun e => ((s.run F (evs.take i)).step F e).2 := by
  induction evs generalizing s i with
  | nil => simp [canonEvents]
  | cons e evs ih =>
      cases i with
      | zero => rfl
      | succ i => exact ih _ i

/-- The table after an event stays in front of the table of the whole stream. -/
theorem prefix_run_of_step {evs : List Event} {i : ℕ} {e : Event} (he : evs[i]? = some e)
    (s : CanonState) :
    ((s.run F (evs.take i)).step F e).1.addrs <+: (s.run F evs).addrs := by
  induction evs generalizing s i with
  | nil => simp at he
  | cons f evs ih =>
      cases i with
      | zero =>
          obtain rfl : f = e := by simpa using he
          exact prefix_run_addrs _ evs
      | succ i => exact ih he _

theorem fdArgs_getElem? (fds : List PyStr) (sc : PyStr) {args : List PyStr} {p : ℕ} {x : PyStr}
    (hx : args[p]? = some x) :
    (fdArgs fds sc args)[p]? = some x ∨
      p = 0 ∧ sc ∈ fdCarriers ∧ ∃ as, fdArgs fds sc args = token "FD" fds x :: as := by
  rcases args with - | ⟨a, as⟩
  · simp at hx
  · unfold fdArgs
    dsimp only
    split_ifs with hfd
    · cases p with
      | zero =>
          obtain rfl : a = x := by simpa using hx
          exact .inr ⟨rfl, hfd.1, as, rfl⟩
      | succ p => exact .inl hx
    · exact .inl hx

/-- The name of the `n`-th address. -/
def addrName (n : ℕ) : PyStr := py "ADDR_" ++ natText n

/-- An argument that is an address is named as one, unless it is a descriptor that was named. -/
theorem canonicalize_addr {t : Trace} {i p : ℕ} {e c : Event} {x : PyStr}
    (he : t.events[i]? = some e) (hx : e.args[p]? = some x) (haddr : isAddr x = true)
    (hc : (canonicalize F t).events[i]? = some c) :
    (x ∈ (CanonState.init.run F t.events).addrs ∧
      c.args[p]? = some (addrName (ordinal (CanonState.init.run F t.events).addrs x))) ∨
    p = 0 ∧ e.sc ∈ fdCarriers ∧ ∃ fds, c.args[p]? = some (token "FD" fds x) := by
  set s := CanonState.init.run F (t.events.take i)
  set as := fdArgs (s.opens.step e).fds e.sc e.args
  have hcanon : c = (s.step F e).2 := by
    rw [canonicalize, canonEvents_getElem?, he, Option.map_some, Option.some.injEq] at hc
    exact hc.symm
  have hargs : c.args = (canonArgs F s.addrs s.paths as).2.2 := by rw [hcanon]; rfl
  have htable : sightAddrs s.addrs as <+: (CanonState.init.run F t.events).addrs := by
    refine List.IsPrefix.trans ?_ (prefix_run_of_step he .init)
    rw [← canonArgs_addrs (F := F) s.addrs s.paths as]
    exact canonResult_addrs _ _
  rcases fdArgs_getElem? (s.opens.step e).fds e.sc hx with hat | ⟨rfl, hsc, as', hfd⟩
  · refine .inl ⟨htable.subset (mem_sightAddrs.mpr (.inr ⟨List.mem_of_getElem? hat, haddr⟩)), ?_⟩
    rw [hargs, canonArgs_getElem? htable hat haddr]
    rfl
  · refine .inr ⟨rfl, hsc, (s.opens.step e).fds, ?_⟩
    have hplain := absPathSub_plain (F := F)
      (slash_not_mem_token "FD" (by decide) (s.opens.step e).fds x)
    have has : as = token "FD" (s.opens.step e).fds x :: as' := hfd
    rw [hargs, has, canonArgs, not_addr_token_fd, if_neg Bool.false_ne_true, hplain,
      List.getElem?_cons_zero]

/-- An argument that is an address and is named as one is known by its ordinal. -/
theorem ordinal_of_addrName {t : Trace} {i p n : ℕ} {e c : Event} {x : PyStr}
    (he : t.events[i]? = some e) (hx : e.args[p]? = some x) (haddr : isAddr x = true)
    (hc : (canonicalize F t).events[i]? = some c) (hn : c.args[p]? = some (addrName n)) :
    x ∈ (CanonState.init.run F t.events).addrs ∧
      ordinal (CanonState.init.run F t.events).addrs x = n := by
  rcases canonicalize_addr he hx haddr hc with ⟨hmem, hname⟩ | ⟨-, -, fds, hname⟩
  · rw [hname, Option.some.injEq] at hn
    exact ⟨hmem, natText_inj.mp (List.append_cancel_left hn)⟩
  · rw [hname, Option.some.injEq] at hn
    exact absurd (congrArg List.head? hn) (by simp [token, addrName, py])

end Ordinals

/-- **Names of addresses.**  A renaming of addresses that keeps the flags of the open calls does
not change the canonical trace, an argument that is an address has an ordinal in it unless it is
rewritten as the descriptor of a call, and two such arguments have the same ordinal only if they are
the same. -/
theorem canonicalize_address_names (F : Type) [Runtime F] (t : Trace) :
    (∀ ρ : Address ↪ Address, (∀ e ∈ t.events, KeepsFlags ρ e) →
      canonicalize F (t.rename ρ) = canonicalize F t) ∧
    (∀ (i p : ℕ) (e c : Event) (x : Address), t.events[i]? = some e → e.args[p]? = some x.1 →
      (canonicalize F t).events[i]? = some c →
      (∃ n, c.args[p]? = some (addrName n)) ∨
        p = 0 ∧ e.sc ∈ fdCarriers ∧ ∃ fds, c.args[p]? = some (token "FD" fds x.1)) ∧
    ∀ (i j p q n : ℕ) (e f c d : Event) (x y : Address),
      t.events[i]? = some e → e.args[p]? = some x.1 →
      t.events[j]? = some f → f.args[q]? = some y.1 →
      (canonicalize F t).events[i]? = some c → (canonicalize F t).events[j]? = some d →
      c.args[p]? = some (addrName n) → d.args[q]? = some (addrName n) → x = y := by
  refine ⟨fun ρ h => canonicalize_rename h, ?_, ?_⟩
  · intro i p e c x he hx hc
    exact (canonicalize_addr he hx x.2 hc).imp_left fun h => ⟨_, h.2⟩
  · intro i j p q n e f c d x y he hx hf hy hc hd hcn hdn
    obtain ⟨hmem, hordx⟩ := ordinal_of_addrName he hx x.2 hc hcn
    obtain ⟨-, hordy⟩ := ordinal_of_addrName hf hy y.2 hd hdn
    exact Subtype.ext ((ordinal_inj hmem).mp (hordx.trans hordy.symm))

/-- A trace with two allocations and an open for writing. -/
def allocTrace (a b : PyStr) : Trace where
  argv0 := py "/work/model"
  argv := []
  stdinHex := []
  stdout := []
  stderr := []
  exitCode := 0
  filesWritten := []
  events := [⟨py "exit", py "brk", [py "0x0"], some (some a)⟩,
    ⟨py "enter", py "open", [b, py "0x241"], none⟩,
    ⟨py "enter", py "write", [py "0x1", b, a], none⟩]

theorem canonicalize_address_names_swap :
    canonicalize ZeroFloat (allocTrace (py "0x4c0000") (py "0x4d0000")) =
      canonicalize ZeroFloat (allocTrace (py "0x4d0000") (py "0x4c0000")) := by
  have hswap := (canonicalize_address_names ZeroFloat
    (allocTrace (py "0x4d0000") (py "0x4c0000"))).1
    (Equiv.swap ⟨py "0x4c0000", by decide⟩ ⟨py "0x4d0000", by decide⟩).toEmbedding
    (by
      intro e he hsc a ha
      simp only [allocTrace, List.mem_cons, List.not_mem_nil, or_false] at he
      rcases he with rfl | rfl | rfl
      · exact absurd hsc (by decide)
      · have hflags : a.1 = py "0x241" := by
          simpa [flagsIndex, py] using ha.symm
        exact absurd a.2 (by rw [hflags]; decide)
      · exact absurd hsc (by decide))
  exact hswap

end ReSchema
