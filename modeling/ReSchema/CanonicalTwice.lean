/-
ReSchema/CanonicalTwice.lean

The canonicaliser applied twice.

A canonical trace has no address and takes no descriptor that its own opens
return (`Inert`), so a second pass finds nothing to rename but paths.
`canonicalize_twice_iff` says when it finds none: where no text of the trace
rejoins (`Rejoins`).
-/
import ReSchema.AbsPaths
import ReSchema.SliceAnchor

namespace ReSchema

open Py

/-! ### Numerals and names of paths -/

theorem hexVal_P : hexVal (ch 'P') = none := by decide

theorem not_mem_of_hexTail {s : PyStr} {n m : ℕ} (h : hexTail n s = some m) : ch 'P' ∉ s := by
  fun_induction hexTail n s with
  | case1 n => exact List.not_mem_nil
  | case2 n => cases h
  | case3 n d r v hv ih =>
      simp only [List.mem_cons, not_or]
      refine ⟨by decide, ?_, ih h⟩
      rintro rfl
      rw [hexVal_P] at hv
      cases hv
  | case4 n d r hv => cases h
  | case5 n c r hc v hv ih =>
      simp only [List.mem_cons, not_or]
      refine ⟨?_, ih h⟩
      rintro rfl
      rw [hexVal_P] at hv
      cases hv
  | case6 n c r hc hv => cases h

theorem not_mem_of_hexNumber {s : PyStr} {n : ℕ} (h : hexNumber s = some n) : ch 'P' ∉ s := by
  rcases s with - | ⟨c, r⟩
  · cases h
  · obtain ⟨v, hv, htail⟩ := Option.bind_eq_some_iff.mp h
    simp only [List.mem_cons, not_or]
    refine ⟨?_, not_mem_of_hexTail htail⟩
    rintro rfl
    rw [hexVal_P] at hv
    cases hv

theorem mem_dropHexPrefix {s : PyStr} (h : ch 'P' ∈ s) : ch 'P' ∈ dropHexPrefix s := by
  unfold dropHexPrefix
  split
  · rename_i z x r
    split_ifs with hzx
    · have hr : ch 'P' ∈ r := by
        simp only [List.mem_cons] at h
        rcases h with h | h | h
        · exact absurd (h.trans hzx.1) (by decide)
        · rcases hzx.2 with hx | hx <;> exact absurd (h.trans hx) (by decide)
        · exact h
      split
      · rename_i c r'
        split_ifs with hc
        · rcases List.mem_cons.mp hr with hp | hp
          · exact absurd (hp.trans hc) (by decide)
          · exact hp
        · exact hr
      · exact hr
    · exact h
  · exact h

theorem mem_strip {s : PyStr} {c : CodePoint} (hc : isAsciiSpace c = false) (h : c ∈ s) :
    c ∈ strip s := by
  have hdrop : ∀ t : PyStr, c ∈ t → c ∈ t.dropWhile isAsciiSpace := by
    intro t ht
    rw [← List.takeWhile_append_dropWhile (p := isAsciiSpace) (l := t)] at ht
    rcases List.mem_append.mp ht with ht | ht
    · have := List.mem_takeWhile_imp ht
      rw [hc] at this
      cases this
    · exact ht
  rw [strip, List.mem_reverse]
  exact hdrop _ (List.mem_reverse.mpr (hdrop s h))

/-- A text with a capital P is no numeral. -/
theorem intHex_of_mem {s : PyStr} (h : ch 'P' ∈ s) : intHex s = none := by
  have hascii : ch 'P' ∈ s.map asciiOf := List.mem_map.mpr ⟨ch 'P', h, by decide⟩
  have hstrip := mem_strip (by decide) hascii
  rw [intHex]
  generalize strip (s.map asciiOf) = t at hstrip ⊢
  rcases t with - | ⟨c, r⟩
  · rfl
  · have hnone : ∀ t, ch 'P' ∈ t → hexNumber (dropHexPrefix t) = none := by
      intro t ht
      by_contra hne
      obtain ⟨n, hn⟩ := Option.ne_none_iff_exists'.mp hne
      exact not_mem_of_hexNumber hn (mem_dropHexPrefix ht)
    have hr : c = ch '-' ∨ c = ch '+' → ch 'P' ∈ r := by
      intro hc
      rcases List.mem_cons.mp hstrip with hp | hp
      · rcases hc with hc | hc <;> exact absurd (hp.trans hc) (by decide)
      · exact hp
    dsimp only
    split_ifs with h1 h2
    · rw [hnone r (hr (.inl h1))]
      rfl
    · rw [hnone r (hr (.inr h2))]
      rfl
    · rw [hnone _ hstrip]
      rfl

theorem isAddr_of_mem {s : PyStr} (h : ch 'P' ∈ s) : isAddr s = false := by
  rcases s with - | ⟨z, - | ⟨x, r⟩⟩
  · rfl
  · rfl
  · rw [isAddr]
    by_contra hne
    rw [Bool.not_eq_false, Bool.and_eq_true, Bool.and_eq_true, Bool.and_eq_true, beq_iff_eq,
      beq_iff_eq, List.all_eq_true] at hne
    obtain ⟨⟨⟨rfl, rfl⟩, -⟩, hall⟩ := hne
    simp only [List.mem_cons] at h
    rcases h with h | h | h
    · exact absurd h (by decide)
    · exact absurd h (by decide)
    · exact absurd (hall _ h) (by decide)

section Paths

variable {F : Type} [Runtime F] [AsciiWords F]

/-- A text with a path gets the name of one. -/
theorem pathSub_eq_or_infix (P : List PyStr) (s : PyStr) :
    (pathSub F P s).2 = s ∨ py "PATH_" <:+: (pathSub F P s).2 := by
  induction s using scan_induct (F := F) generalizing P with
  | nil => exact .inl rfl
  | path r hr _ =>
      rw [pathSub_path hr]
      refine .inr ⟨[], natText (ordinal P (ch '/' :: (names F r).1)) ++
        (pathSub F (sight P (ch '/' :: (names F r).1)) (behind F r)).2, ?_⟩
      rw [token, ← List.append_assoc]
      rfl
  | step c r hno ih =>
      rw [pathSub_step hno]
      rcases ih P with h | h
      · exact .inl (by rw [h])
      · exact .inr (h.trans (List.suffix_cons c _).isInfix)

end Paths

/-! ### One pass -/

section Pass

variable {F : Type} [Runtime F]

/-- What the pass makes of one argument. -/
def Renders (F : Type) [Runtime F] (a c : PyStr) : Prop :=
  isAddr a = true ∧ (∃ T, c = token "ADDR" T a) ∨ isAddr a = false ∧ ∃ P, c = (pathSub F P a).2

theorem renders_canonArgs (A P as : List PyStr) :
    List.Forall₂ (Renders F) as (canonArgs F A P as).2.2 := by
  induction as generalizing A P with
  | nil => exact .nil
  | cons a as ih =>
      by_cases ha : isAddr a = true
      · rw [canonArgs, if_pos ha]
        exact .cons (.inl ⟨ha, A, rfl⟩) (ih _ _)
      · rw [canonArgs, if_neg ha]
        exact .cons (.inr ⟨Bool.eq_false_iff.mpr ha, P, rfl⟩) (ih _ _)

theorem run_opens (s : CanonState) (evs : List Event) :
    (s.run F evs).opens = openWalk s.opens evs := by
  induction evs generalizing s with
  | nil => rfl
  | cons e evs ih => exact ih _

/-- The tables before position `i`. -/
def stateAt (F : Type) [Runtime F] (evs : List Event) (i : ℕ) : CanonState :=
  CanonState.run F .init (evs.take i)

theorem stateAt_opens (evs : List Event) (i : ℕ) : (stateAt F evs i).opens = walkTo evs i :=
  run_opens _ _

theorem canonEvents_at (evs : List Event) (i : ℕ) :
    (canonEvents F .init evs)[i]? = evs[i]?.map fun e => ((stateAt F evs i).step F e).2 :=
  canonEvents_getElem? _ _ _

/-- The arguments of an event, descriptors renamed. -/
def namedArgs (evs : List Event) (i : ℕ) (e : Event) : List PyStr :=
  fdArgs ((walkTo evs i).step e).fds e.sc e.args

theorem step_args (evs : List Event) (i : ℕ) (e : Event) :
    List.Forall₂ (Renders F) (namedArgs evs i e) ((stateAt F evs i).step F e).2.args := by
  rw [namedArgs, ← stateAt_opens (F := F)]
  exact renders_canonArgs _ _ _

theorem step_result (s : CanonState) (e : Event) {b : PyStr}
    (h : (s.step F e).2.result = some (some b)) :
    isAddr b = false ∧ (py "0x" <+: b → e.result = some (some b)) := by
  have hres : (canonResult (canonArgs F s.addrs s.paths
      (fdArgs (s.opens.step e).fds e.sc e.args)).1 e.result).2 = some (some b) := h
  rcases hr : e.result with - | - | a
  · rw [hr] at hres
    cases hres
  · rw [hr] at hres
    cases hres
  · rw [hr, canonResult] at hres
    split_ifs at hres with ha
    · cases hres
      refine ⟨rfl, fun hx => ?_⟩
      exact absurd (head_of_hex hx) (by show some (ch 'A') ≠ _; decide)
    · cases hres
      exact ⟨Bool.eq_false_iff.mpr ha, fun _ => rfl⟩

/-- A stream in which a pass finds nothing to rename but paths. -/
structure Inert (evs : List Event) : Prop where
  args : ∀ (i : ℕ) (e : Event), evs[i]? = some e → ∀ a ∈ e.args, isAddr a = false
  result : ∀ (i : ℕ) (e : Event), evs[i]? = some e →
    ∀ a, e.result = some (some a) → isAddr a = false
  carrier : ∀ (i : ℕ) (e : Event), evs[i]? = some e → e.sc ∈ fdCarriers →
    ∀ a, e.args.head? = some a → a ∉ (walkTo evs i).fds

theorem canonArgs_inert {as : List PyStr} (h : ∀ a ∈ as, isAddr a = false) [AsciiWords F]
    (A P : List PyStr) : (canonArgs F A P as).2.2 = as ↔ ∀ a ∈ as, Settled F a := by
  induction as generalizing P with
  | nil => simp [canonArgs]
  | cons a as ih =>
      obtain ⟨ha, has⟩ := List.forall_mem_cons.mp h
      have hhead : (absPathSub F a.length P a).2 = a ↔ Settled F a := pathSub_eq_self_iff
      rw [canonArgs, ha, if_neg Bool.false_ne_true, List.cons.injEq, hhead, ih has,
        List.forall_mem_cons]

/-- An event of an inert stream is kept where its arguments have no path. -/
theorem Inert.step_iff [AsciiWords F] {evs : List Event} (h : Inert evs) {i : ℕ} {e : Event}
    (he : evs[i]? = some e) :
    ((stateAt F evs i).step F e).2 = e ↔ ∀ a ∈ e.args, Settled F a := by
  have hargs : fdArgs ((stateAt F evs i).opens.step e).fds e.sc e.args = e.args := by
    rw [stateAt_opens]
    rcases hcase : e.args with - | ⟨a, as⟩
    · rfl
    · refine if_neg fun hc => h.carrier i e he hc.1 a (by rw [hcase]; rfl) ?_
      rw [← step_of_not_open (not_open_of_carrier hc.1) (walkTo evs i)]
      exact hc.2
  have hres : ∀ A, (canonResult A e.result).2 = e.result := by
    intro A
    rcases hr : e.result with - | - | a
    · rfl
    · rfl
    · rw [canonResult, h.result i e he a hr]
      rfl
  have hstep : ((stateAt F evs i).step F e).2 = { e with
      args := (canonArgs F (stateAt F evs i).addrs (stateAt F evs i).paths e.args).2.2 } := by
    simp only [CanonState.step, hargs, hres]
  rw [hstep, ← canonArgs_inert (h.args i e he) (stateAt F evs i).addrs (stateAt F evs i).paths]
  constructor
  · exact fun heq => congrArg Event.args heq
  · exact fun heq => by rw [heq]

/-- **A pass over an inert stream.** -/
theorem Inert.canonEvents_iff [AsciiWords F] {evs : List Event} (h : Inert evs) :
    canonEvents F .init evs = evs ↔
      ∀ (i : ℕ) (e : Event), evs[i]? = some e → ∀ a ∈ e.args, Settled F a := by
  constructor
  · intro heq i e he
    have hat := canonEvents_at (F := F) evs i
    rw [heq, he, Option.map_some, Option.some.injEq] at hat
    exact (h.step_iff he).mp hat.symm
  · intro hall
    apply List.ext_getElem?
    intro i
    rw [canonEvents_at]
    rcases he : evs[i]? with - | e
    · rfl
    · rw [Option.map_some, (h.step_iff he).mpr (hall i e he)]

end Pass

/-! ### The canonical stream -/

/-- No text of an event has the beginning of a name that the pass gives. -/
def TokenFree (evs : List Event) : Prop :=
  ∀ e ∈ evs, ∀ a ∈ e.phase :: e.sc :: e.args ++ resultTexts e.result,
    ∀ p ∈ [py "ADDR_", py "FD_", py "PATH_"], ¬ p <:+: a

section Canonical

variable {F : Type} [Runtime F] {evs : List Event}

/-- An event of the canonical stream stands for one of the stream. -/
theorem exists_of_canonEvents {i : ℕ} {c : Event} (h : (canonEvents F .init evs)[i]? = some c) :
    ∃ e, evs[i]? = some e ∧ c = ((stateAt F evs i).step F e).2 := by
  rw [canonEvents_at] at h
  obtain ⟨e, he, rfl⟩ := Option.map_eq_some_iff.mp h
  exact ⟨e, he, rfl⟩

theorem canonEvents_of_getElem? {i : ℕ} {e : Event} (h : evs[i]? = some e) :
    (canonEvents F .init evs)[i]? = some ((stateAt F evs i).step F e).2 := by
  rw [canonEvents_at, h, Option.map_some]

variable [AsciiWords F]

omit [AsciiWords F] in
theorem pathSub_plain {a : PyStr} (h : ch '/' ∉ a) (P : List PyStr) :
    pathSub F P a = (P, a) := absPathSub_plain h _ P

theorem Renders.not_addr {a c : PyStr} (h : Renders F a c) : isAddr c = false := by
  rcases h with ⟨-, T, rfl⟩ | ⟨ha, P, rfl⟩
  · rfl
  · rcases pathSub_eq_or_infix (F := F) P a with heq | hin
    · rw [heq]
      exact ha
    · exact isAddr_of_mem (hin.subset (by decide))

theorem not_addr_of_renders {as cs : List PyStr} (h : List.Forall₂ (Renders F) as cs) :
    ∀ c ∈ cs, isAddr c = false := by
  induction h with
  | nil => exact fun _ hc => absurd hc List.not_mem_nil
  | cons hac _ ih => exact List.forall_mem_cons.mpr ⟨hac.not_addr, ih⟩

/-- The pass leaves no path where the arguments do not rejoin. -/
theorem settled_iff_of_renders {as cs : List PyStr} (h : List.Forall₂ (Renders F) as cs) :
    (∀ c ∈ cs, Settled F c) ↔ ∀ a ∈ as, isAddr a = false → ¬ Rejoins F a := by
  induction h with
  | nil => simp
  | @cons a c as cs hac _ ih =>
      rw [List.forall_mem_cons, List.forall_mem_cons, ih]
      refine and_congr_left fun _ => ?_
      rcases hac with ⟨ha, T, rfl⟩ | ⟨ha, P, rfl⟩
      · have hslash := slash_not_mem_token "ADDR" (by decide) T a
        have hset : Settled F (token "ADDR" T a) := by
          rw [← List.append_nil (token "ADDR" T a), settled_append hslash]
          trivial
        exact iff_of_true hset fun hno => by rw [ha] at hno; cases hno
      · rw [settled_pathSub_iff]
        exact ⟨fun hno _ => hno, fun hno => hno ha⟩

/-- The pass makes no numeral. -/
theorem Renders.intHex {a c : PyStr} (h : Renders F a c) : Py.intHex c = none ∨ c = a := by
  rcases h with ⟨-, T, rfl⟩ | ⟨-, P, rfl⟩
  · exact .inl (intHex_token T a)
  · rcases pathSub_eq_or_infix (F := F) P a with heq | hin
    · exact .inr heq
    · exact .inl (intHex_of_mem (hin.subset (by decide)))

/-- The pass makes no intent to write. -/
theorem writeIntent_of_renders {sc : PyStr} {as cs : List PyStr}
    (h : List.Forall₂ (Renders F) as cs) (hw : writeIntent sc cs = true) :
    writeIntent sc as = true := by
  by_cases hsc : sc = py "creat"
  · rw [writeIntent, if_pos hsc]
  · rw [writeIntent, if_neg hsc] at hw ⊢
    rcases hc : cs[flagsIndex sc]? with - | c
    · simp [hc] at hw
    · have hlen : flagsIndex sc < as.length := by
        rw [h.length_eq]
        exact (List.getElem?_eq_some_iff.mp hc).1
      have hrender : Renders F as[flagsIndex sc] c := by
        have := h.get hlen (by rw [← h.length_eq]; exact hlen)
        obtain ⟨hlt, rfl⟩ := List.getElem?_eq_some_iff.mp hc
        exact this
      rw [hc, Option.bind_some] at hw
      rw [List.getElem?_eq_getElem hlen, Option.bind_some]
      rcases hrender.intHex with hnone | heq
      · rw [hnone] at hw
        cases hw
      · rwa [heq] at hw

theorem namedArgs_of_open {e : Event} (h : e.sc ∈ openFamily) (i : ℕ) :
    namedArgs evs i e = e.args := by
  rw [namedArgs]
  rcases e.args with - | ⟨a, as⟩
  · rfl
  · exact if_neg fun hc => not_carrier_of_open h hc.1

theorem pendingAt_of_canonEvents {n : ℕ} (h : PendingAt (canonEvents F .init evs) n) :
    PendingAt evs n := by
  obtain ⟨i, hi, c, hc, hentry, hw, hquiet⟩ := h
  obtain ⟨e, he, rfl⟩ := exists_of_canonEvents hc
  have hopen : OpenEntry e := hentry
  have hargs := step_args (F := F) evs i e
  rw [namedArgs_of_open hopen.1] at hargs
  refine ⟨i, hi, e, he, hopen, writeIntent_of_renders hargs hw, fun m hm hmn e' he' => ?_⟩
  have hno := hquiet m hm hmn _ (canonEvents_of_getElem? he')
  exact hno

theorem returnedAt_of_canonEvents {j : ℕ} {b : PyStr}
    (h : ReturnedAt (canonEvents F .init evs) j b) : ReturnedAt evs j b := by
  obtain ⟨hpend, c, hc, hexit, hres, hhex⟩ := h
  obtain ⟨e, he, rfl⟩ := exists_of_canonEvents hc
  exact ⟨pendingAt_of_canonEvents hpend, e, he, hexit, (step_result _ e hres).2 hhex, hhex⟩

/-- A call takes no descriptor that a canonical open has returned. -/
theorem carrier_canonEvents (hfree : TokenFree evs) {i : ℕ} {e : Event} {b : PyStr}
    (hc : e.sc ∈ fdCarriers)
    (hb : ((stateAt F evs i).step F e).2.args.head? = some b) :
    b ∉ (walkTo (canonEvents F .init evs) i).fds := by
  intro hmem
  obtain ⟨j, hj, hret⟩ := mem_walkTo_fds.mp hmem
  have hraw := returnedAt_of_canonEvents hret
  obtain ⟨-, f, hf, -, hres, hhex⟩ := id hraw
  have hargs := step_args (F := F) evs i e
  rw [namedArgs, step_of_not_open (not_open_of_carrier hc)] at hargs
  obtain ⟨bs, hbs⟩ := List.head?_eq_some_iff.mp hb
  rw [hbs] at hargs
  rcases hcase : e.args with - | ⟨a, as⟩
  · rw [hcase] at hargs
    cases hargs
  by_cases ha : a ∈ (walkTo evs i).fds
  · -- the call takes a named descriptor, and a name is no literal
    have hnamed : fdArgs (walkTo evs i).fds e.sc e.args =
        fdName (ordinal (walkTo evs i).fds a) :: as := by
      rw [hcase, fdArgs, if_pos ⟨hc, ha⟩, fdName_eq_token]
    rw [hnamed, List.forall₂_cons] at hargs
    rcases hargs.1 with ⟨haddr, -⟩ | ⟨-, P, rfl⟩
    · cases haddr
    · have hslash := slash_not_mem_token "FD" (by decide) (walkTo evs i).fds a
      rw [fdName_eq_token] at hslash
      rw [pathSub_plain hslash] at hhex
      exact absurd (head_of_hex hhex) (by show some (ch 'F') ≠ _; decide)
  · have hsame : fdArgs (walkTo evs i).fds e.sc e.args = a :: as := by
      rw [hcase, fdArgs, if_neg fun h => ha h.2]
    rw [hsame, List.forall₂_cons] at hargs
    rcases hargs.1 with ⟨-, T, rfl⟩ | ⟨-, P, rfl⟩
    · exact absurd (head_of_hex hhex) (by show some (ch 'A') ≠ _; decide)
    · rcases pathSub_eq_or_infix (F := F) P a with heq | hin
      · rw [heq] at hraw
        exact ha (mem_walkTo_fds.mpr ⟨j, hj, hraw⟩)
      · have hno := hfree f (List.mem_of_getElem? hf) (pathSub F P a).2
          (by rw [hres]; simp [resultTexts]) (py "PATH_") (by simp)
        exact hno hin

/-- **A canonical stream is inert.** -/
theorem inert_canonEvents (hfree : TokenFree evs) : Inert (canonEvents F .init evs) where
  args i c hc a ha := by
    obtain ⟨e, -, rfl⟩ := exists_of_canonEvents hc
    exact not_addr_of_renders (step_args evs i e) a ha
  result i c hc a ha := by
    obtain ⟨e, -, rfl⟩ := exists_of_canonEvents hc
    exact (step_result _ e ha).1
  carrier i c hc hsc a ha := by
    obtain ⟨e, -, rfl⟩ := exists_of_canonEvents hc
    exact carrier_canonEvents (e := e) hfree hsc ha

end Canonical

/-! ### Twice -/

/-- No argument rejoins that the pass reads as a text: addresses are renamed as a whole, and so
is the descriptor of a call if an open for writing has returned it. -/
def NoneRejoins (F : Type) [Runtime F] (evs : List Event) : Prop :=
  ∀ (i : ℕ) (e : Event) (n : ℕ) (a : PyStr), evs[i]? = some e → e.args[n]? = some a →
    isAddr a = false → ¬ (n = 0 ∧ e.sc ∈ fdCarriers ∧ ∃ j < i, ReturnedAt evs j a) →
    ¬ Rejoins F a

theorem not_rejoins_of_no_slash {F : Type} [Runtime F] {a : PyStr} (h : ch '/' ∉ a) :
    ¬ Rejoins F a := by
  rintro ⟨t, u, rfl, -⟩
  exact h (by simp)

/-- The texts that the pass reads at one event. -/
theorem namedArgs_iff {F : Type} [Runtime F] {evs : List Event} {i : ℕ} {e : Event} :
    (∀ a ∈ namedArgs evs i e, isAddr a = false → ¬ Rejoins F a) ↔
      ∀ n a, e.args[n]? = some a → isAddr a = false →
        ¬ (n = 0 ∧ e.sc ∈ fdCarriers ∧ ∃ j < i, ReturnedAt evs j a) → ¬ Rejoins F a := by
  rcases hargs : e.args with - | ⟨b, bs⟩
  · simp [namedArgs, hargs, fdArgs]
  by_cases hc : e.sc ∈ fdCarriers ∧ b ∈ (walkTo evs i).fds
  · -- the descriptor has got its name, in which there is no slash
    have hnamed : namedArgs evs i e = fdName (ordinal (walkTo evs i).fds b) :: bs := by
      rw [namedArgs, step_of_not_open (not_open_of_carrier hc.1), hargs, fdArgs, if_pos hc,
        fdName_eq_token]
    have hslash := slash_not_mem_token "FD" (by decide) (walkTo evs i).fds b
    rw [fdName_eq_token] at hslash
    rw [hnamed, List.forall_mem_cons]
    constructor
    · rintro ⟨-, hall⟩ n a ha haddr hno
      cases n with
      | zero =>
          cases ha
          exact absurd ⟨rfl, hc.1, mem_walkTo_fds.mp hc.2⟩ hno
      | succ n => exact hall a (List.mem_of_getElem? ha) haddr
    · intro hall
      refine ⟨fun _ => not_rejoins_of_no_slash hslash, fun a ha haddr => ?_⟩
      obtain ⟨n, hn⟩ := List.mem_iff_getElem?.mp ha
      exact hall (n + 1) a hn haddr fun h => absurd h.1 (Nat.succ_ne_zero n)
  · have hsame : namedArgs evs i e = b :: bs := by
      rw [namedArgs, hargs, fdArgs]
      refine if_neg fun h => hc ⟨h.1, ?_⟩
      rw [← step_of_not_open (not_open_of_carrier h.1) (walkTo evs i)]
      exact h.2
    rw [hsame]
    constructor
    · exact fun hall n a ha haddr _ => hall a (List.mem_of_getElem? ha) haddr
    · intro hall a ha haddr
      obtain ⟨n, hn⟩ := List.mem_iff_getElem?.mp ha
      apply hall n a hn haddr
      rintro ⟨rfl, hsc, hret⟩
      refine hc ⟨hsc, ?_⟩
      cases hn
      exact mem_walkTo_fds.mpr hret

theorem slash_not_mem_splitOn (s : PyStr) : ∀ p ∈ s.splitOn (ch '/'), ch '/' ∉ p := by
  induction s with
  | nil => simp
  | cons c s ih =>
      rw [List.splitOn_cons_eq_if_modifyHead]
      split_ifs with hc
      · exact List.forall_mem_cons.mpr ⟨List.not_mem_nil, ih⟩
      · rcases hsplit : s.splitOn (ch '/') with - | ⟨p, ps⟩
        · exact fun _ h => absurd h List.not_mem_nil
        · rw [hsplit] at ih
          obtain ⟨hp, hps⟩ := List.forall_mem_cons.mp ih
          refine List.forall_mem_cons.mpr ⟨fun h => ?_, hps⟩
          rcases List.mem_cons.mp h with h | h
          · exact hc (by rw [h]; exact beq_self_eq_true _)
          · exact hp h

/-- The name of a path is its own name. -/
theorem pathName_pathName (s : PyStr) : pathName (pathName s) = pathName s := by
  rcases hlast : (pathParts s).getLast? with - | p
  · rw [pathName, pathName, hlast]
    decide
  · have hmem := List.mem_filter.mp (List.mem_of_getLast? hlast)
    have hslash := slash_not_mem_splitOn s p hmem.1
    have hparts : pathParts p = [p] := by
      rw [pathParts, List.splitOn_eq_singleton hslash, List.filter_eq_self]
      exact List.forall_mem_singleton.mpr hmem.2
    have hname : pathName s = p := by rw [pathName, hlast, Option.getD_some]
    rw [hname, pathName, hparts]
    rfl

/-- **The canonicaliser twice.**  For every trace whose texts have no beginning of a name, a second
pass changes nothing exactly where no text that the pass reads rejoins. -/
theorem canonicalize_twice_iff (F : Type) [Runtime F] [AsciiWords F] (t : Trace)
    (hfree : TokenFree t.events) :
    canonicalize F (canonicalize F t) = canonicalize F t ↔ NoneRejoins F t.events := by
  have hargv : pathName (canonicalize F t).argv0 = (canonicalize F t).argv0 :=
    pathName_pathName t.argv0
  have hevents : canonicalize F (canonicalize F t) = canonicalize F t ↔
      canonEvents F .init (canonEvents F .init t.events) = canonEvents F .init t.events := by
    constructor
    · exact fun h => congrArg Trace.events h
    · intro h
      rw [canonicalize, hargv]
      exact congrArg (fun evs => { canonicalize F t with events := evs }) h
  rw [hevents, (inert_canonEvents hfree).canonEvents_iff]
  constructor
  · intro hall i e n a he ha
    have hset := hall i _ (canonEvents_of_getElem? he)
    rw [settled_iff_of_renders (step_args t.events i e)] at hset
    exact namedArgs_iff.mp hset n a ha
  · intro hall i c hc
    obtain ⟨e, he, rfl⟩ := exists_of_canonEvents hc
    rw [settled_iff_of_renders (step_args t.events i e)]
    exact namedArgs_iff.mpr fun n a ha => hall i e n a he ha

/-- A run that a file missing under the root of the guest brings down. -/
def missingFileRun (path : PyStr) : Run where
  binary := py "/work/model"
  argv := []
  stdin := []
  out := []
  err := []
  hooks := []
  ending := .raised (py "FileNotFoundError") path
  files := []
  nodup_files := List.nodup_nil

theorem canonicalize_twice_iff_missing :
    canonicalize ZeroFloat (canonicalize ZeroFloat (record (missingFileRun (py "/rootfs/etc/x")))) =
        canonicalize ZeroFloat (record (missingFileRun (py "/rootfs/etc/x"))) ↔
      NoneRejoins ZeroFloat (record (missingFileRun (py "/rootfs/etc/x"))).events :=
  canonicalize_twice_iff ZeroFloat _ (by unfold TokenFree; decide +kernel)

/-- With an empty component in the path, the directory in front of it survives the first pass
and not the second. -/
theorem canonicalize_twice_not_always :
    ¬ ∀ t : Trace, TokenFree t.events →
      canonicalize ZeroFloat (canonicalize ZeroFloat t) = canonicalize ZeroFloat t := by
  intro h
  have heq := h (record (missingFileRun (py "/rootfs//etc/x"))) (by unfold TokenFree; decide +kernel)
  have hfirst : ((canonicalize ZeroFloat (record (missingFileRun (py "/rootfs//etc/x")))).events.map
      Event.args) = [[py "FileNotFoundError: /rootfs/PATH_0"]] := by decide +kernel
  have hsecond : ((canonicalize ZeroFloat (canonicalize ZeroFloat
      (record (missingFileRun (py "/rootfs//etc/x"))))).events.map Event.args) =
      [[py "FileNotFoundError: PATH_0"]] := by decide +kernel
  rw [heq, hfirst] at hsecond
  exact absurd hsecond (by decide)

end ReSchema
