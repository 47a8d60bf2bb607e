/-
ReSchema/SliceAnchor.lean

Where the slices of the comparison are anchored.

The slice of an event should be about the descriptor of that event: it starts
with the open for writing that returned the descriptor last, and ends with the
event (`SliceLaw`).  The slice of a files mismatch should start with the last
completed open for writing (`FilesSliceLaw`).

Neither holds of every stream.  The slices read their table of descriptors off
the canonical stream, which no longer shows flags or results of six digits;
they take the status of `exit_group` for a descriptor; and the last entry of the
table is the descriptor that was new last, which under reuse is not the one
opened last.  `depSlice_iff` and `depSliceForFiles_iff` say exactly when the
slices are anchored.
-/
import ReSchema.AddressNames
import ReSchema.DepSlice

namespace ReSchema

open Py

/-! ### A files mismatch -/

/-- The last completed open for writing is entered at `y`, left at `x`, and returns `a`. -/
def LastCompleted (evs : List Event) (y x : ℕ) (a : PyStr) : Prop :=
  EnteredAt evs x y ∧ ReturnedAt evs x a ∧ ∀ x' b, x < x' → ¬ ReturnedAt evs x' b

/-- Where the stream has a completed open for writing, the slice exists; if at most four writes
go to its descriptor, the one that was new last (at `j`), it starts with the last of the
opens. -/
def FilesSliceLaw (evs : List Event) : Prop :=
  ∀ y x a, LastCompleted evs y x a → depSliceForFiles evs ≠ [] ∧
    ∀ j b, FirstReturned evs j b → (∀ j' b', FirstReturned evs j' b' → j' ≤ j) →
      (writesAt evs (fdName (returnedBefore evs j)) evs.length).length ≤ 4 →
      [y, x] <+: (depSliceForFilesAt evs).map Prod.snd

/-- The last completed open returned the descriptor that was new last, and no exit without an
entry of its own returns it later. -/
def LastIsNew (evs : List Event) : Prop :=
  ∀ y x a, LastCompleted evs y x a → ∀ j b, FirstReturned evs j b →
    (∀ j' b', FirstReturned evs j' b' → j' ≤ j) →
    (writesAt evs (fdName (returnedBefore evs j)) evs.length).length ≤ 4 →
    a = b ∧ ∀ y' x', x < x' → ¬ OpensTo evs a y' x'

theorem depSliceForFilesAt_eq {evs : List Event} {j : ℕ} {b : PyStr} (h : FirstReturned evs j b)
    (hlast : ∀ j' b', FirstReturned evs j' b' → j' ≤ j) :
    depSliceForFilesAt evs = chainAt evs b (fdName (returnedBefore evs j)) evs.length := by
  have hnew : (fdTable evs).getLast? = some b := fdTable_getLast?.mpr ⟨j, h, hlast⟩
  rw [depSliceForFilesAt, hnew, ← ordinal_fdTable h]
  rfl

theorem OpensTo.lt_length {evs : List Event} {a : PyStr} {y x : ℕ} (h : OpensTo evs a y x) :
    x < evs.length := by
  obtain ⟨-, e, he, -⟩ := h
  exact (List.getElem?_eq_some_iff.mp he).1

theorem OpensTo.entry {evs : List Event} {a : PyStr} {y x : ℕ} (h : OpensTo evs a y x) :
    ∃ e, evs[y]? = some e ∧ e.sc ∈ openFamily := by
  obtain ⟨⟨-, ⟨e, he, hentry, -⟩, -⟩, -⟩ := h
  exact ⟨e, he, hentry.1⟩

/-- A stream with a completed open has a slice. -/
theorem depSliceForFiles_ne_nil {evs : List Event} {x : ℕ} {a : PyStr} (h : ReturnedAt evs x a) :
    depSliceForFiles evs ≠ [] := by
  have hmem : a ∈ fdTable evs := mem_fdTable.mpr ⟨x, h⟩
  obtain ⟨b, hb⟩ : ∃ b, (fdTable evs).getLast? = some b :=
    ⟨_, List.getLast?_eq_some_getLast (List.ne_nil_of_mem hmem)⟩
  obtain ⟨m, hm⟩ := mem_fdTable.mp (List.mem_of_getLast? hb)
  obtain ⟨y, hopens⟩ := hm.opensTo
  rw [← depSliceForFilesAt_fst, depSliceForFilesAt, hb]
  intro hnil
  have hchain := takeLast_eq_nil.mp (List.map_eq_nil_iff.mp hnil)
  rcases (opener_spec evs b evs.length).pair with ⟨-, hnone⟩ | ⟨y₁, x₁, e, e', hs, -⟩
  · exact hnone y m hopens.lt_length hopens
  · rw [hs] at hchain
    cases hchain

/-- **The slice of a files mismatch.**  It starts with the last completed open for writing
exactly when that open returned the descriptor that was new last. -/
theorem depSliceForFiles_iff (evs : List Event) :
    (depSliceForFilesAt evs).map Prod.fst = depSliceForFiles evs ∧
      (FilesSliceLaw evs ↔ LastIsNew evs) := by
  refine ⟨depSliceForFilesAt_fst evs, ?_⟩
  constructor
  · intro h y x a hlc j b hj hlast hfew
    have hpre := (h y x a hlc).2 j b hj hlast hfew
    rw [depSliceForFilesAt_eq hj hlast] at hpre
    obtain ⟨hent, hret, -⟩ := hlc
    obtain ⟨e, he, hentry, -⟩ := hent.2.1
    obtain ⟨-, hopens, hno⟩ := (chainAt_prefix_iff hfew ⟨e, he, hentry.1⟩).mp hpre
    obtain ⟨-, f, hf, -, hres, -⟩ := hret
    obtain ⟨-, f', hf', -, hres'⟩ := hopens
    rw [hf] at hf'
    cases hf'
    rw [hres, Option.some.injEq, Option.some.injEq] at hres'
    subst hres'
    exact ⟨rfl, fun y' x' hx' ho => hno y' x' hx' ho.lt_length ho⟩
  · intro h y x a hlc
    refine ⟨depSliceForFiles_ne_nil hlc.2.1, fun j b hj hlast hfew => ?_⟩
    obtain ⟨rfl, hno⟩ := h y x a hlc j b hj hlast hfew
    obtain ⟨hent, hret, -⟩ := hlc
    have hopens : OpensTo evs a y x := by
      obtain ⟨-, f, hf, hexit, hres, -⟩ := hret
      exact ⟨hent, f, hf, hexit, hres⟩
    rw [depSliceForFilesAt_eq hj hlast, chainAt_prefix_iff hfew hopens.entry]
    exact ⟨hopens.lt_length, hopens, fun y' x' hx' _ => hno y' x' hx'⟩

/-- A run that opens two files for writing, closes the first, and opens a third in its place. -/
def reusingRun : Run where
  binary := py "/work/model"
  argv := []
  stdin := []
  out := []
  err := []
  hooks := [⟨.open, .enter, [some 0x400000, some 0x241, some 0x1b6]⟩,
    ⟨.open, .exit, [some 0x400000, some 0x241, some 0x1b6, some 3]⟩,
    ⟨.open, .enter, [some 0x400010, some 0x241, some 0x1b6]⟩,
    ⟨.open, .exit, [some 0x400010, some 0x241, some 0x1b6, some 4]⟩,
    ⟨.close, .enter, [some 3]⟩, ⟨.close, .exit, [some 3, some 0]⟩,
    ⟨.open, .enter, [some 0x400020, some 0x241, some 0x1b6]⟩,
    ⟨.open, .exit, [some 0x400020, some 0x241, some 0x1b6, some 3]⟩,
    ⟨.exitGroup, .enter, [some 0]⟩]
  ending := .finished 0
  files := []
  nodup_files := List.nodup_nil

/-- Its slice is about the second file, though the third was opened last. -/
theorem filesSliceLaw_not_always :
    ¬ ∀ r : Run, FilesSliceLaw (canonicalize ZeroFloat (record r)).events := by
  intro h
  set evs := (canonicalize ZeroFloat (record reusingRun)).events with hevs
  have hlen : evs.length = 9 := by decide +kernel
  have hentry : evs[6]? = some ⟨py "enter", py "open", [py "ADDR_2", py "0x241", py "0x1b6"],
    none⟩ := by decide +kernel
  have hexit : evs[7]? = some ⟨py "exit", py "open", [py "ADDR_2", py "0x241", py "0x1b6"],
    some (some (py "0x3"))⟩ := by decide +kernel
  have hlast : evs[8]? = some ⟨py "enter", py "exit_group", [py "0x0"], none⟩ := by decide +kernel
  have hpend : PendingAt evs 7 := ⟨6, by decide, _, hentry, by decide, by decide,
    fun m hm hm' => absurd hm (by omega)⟩
  obtain ⟨y, hy⟩ := EnteredAt.of_pendingAt hpend
  -- the third open returns the number of the first, so the table ends with the second
  have hcompleted : LastCompleted evs y 7 (py "0x3") := by
    refine ⟨hy, ⟨hpend, _, hexit, by decide, rfl, by decide⟩, fun x' b hx' hret => ?_⟩
    obtain rfl : x' = 8 := by
      have := hret.lt_length
      omega
    obtain ⟨-, e, he, hopen, -⟩ := hret
    rw [hlast] at he
    cases he
    exact absurd hopen (by decide)
  have hnew : (fdTable evs).getLast? = some (py "0x4") := by decide +kernel
  obtain ⟨j, hj, hlast⟩ := fdTable_getLast?.mp hnew
  have hfew : (writesAt evs (fdName (returnedBefore evs j)) evs.length).length ≤ 4 := by
    have hname : fdName (returnedBefore evs j) = fdName 1 := by
      rw [← ordinal_fdTable hj]
      decide +kernel
    rw [hname]
    decide +kernel
  have hpos : (depSliceForFilesAt evs).map Prod.snd = [2, 3] := by decide +kernel
  have hpre := (h reusingRun y 7 _ hcompleted).2 j _ hj hlast hfew
  rw [← hevs, hpos, List.cons_prefix_cons, List.cons_prefix_cons] at hpre
  exact absurd hpre.2.1 (by decide)

/-! ### The recorded and the canonical stream -/

/-- The flags of an open call do not look like an address. -/
def LiteralFlags (e : Event) : Prop :=
  e.sc = py "creat" ∨ ∀ f, e.args[flagsIndex e.sc]? = some f → isAddr f = false

theorem strip_eq_self {s : PyStr} (h : ∀ c ∈ s, isAsciiSpace c = false) : strip s = s := by
  have hdrop : ∀ t : PyStr, (∀ c ∈ t, isAsciiSpace c = false) → t.dropWhile isAsciiSpace = t := by
    intro t ht
    cases t with
    | nil => rfl
    | cons c t => rw [List.dropWhile_cons, ht c List.mem_cons_self]; rfl
  rw [strip, hdrop s h, hdrop s.reverse fun c hc => h c (List.mem_reverse.mp hc),
    List.reverse_reverse]

/-- The name of an address is in ASCII, without white space. -/
theorem mem_token {T : List PyStr} {a : PyStr} {c : CodePoint} (h : c ∈ token "ADDR" T a) :
    isAsciiSpace c = false ∧ c.val < 0x80 := by
  rw [token, List.mem_append, List.mem_cons] at h
  rcases h with h | rfl | h
  · have hall : ((py "ADDR").all fun c => !isAsciiSpace c && c.val < 0x80) = true := by decide
    simpa using List.all_eq_true.mp hall c h
  · decide
  · have hdigit := isDigit_of_mem_natText h
    simp only [isDigit, Bool.and_eq_true, decide_eq_true_eq] at hdigit
    simp only [isAsciiSpace, Bool.or_eq_false_iff, beq_eq_false_iff_ne, ne_eq,
      Bool.and_eq_false_iff, decide_eq_false_iff_not]
    omega

/-- The name of an address is no numeral. -/
theorem intHex_token (T : List PyStr) (a : PyStr) : intHex (token "ADDR" T a) = none := by
  rw [intHex, map_asciiOf fun c hc => (mem_token hc).2, strip_eq_self fun c hc => (mem_token hc).1]
  rfl

theorem head_of_hex {a : PyStr} (h : py "0x" <+: a) : a.head? = some (ch '0') := by
  obtain ⟨r, rfl⟩ := h
  rfl

theorem canonArg_eq_iff {T : List PyStr} {a b : PyStr} (ha : py "0x" <+: a) :
    canonArg T b = a ↔ b = a ∧ isAddr a = false := by
  rw [canonArg]
  by_cases hb : isAddr b = true
  · rw [if_pos hb]
    refine iff_of_false ?_ fun h => ?_
    · rintro rfl
      exact absurd (head_of_hex ha) (by show some (ch 'A') ≠ _; decide)
    · rw [← h.1, hb] at h
      exact absurd h.2 (by decide)
  · rw [if_neg hb]
    exact ⟨fun h => ⟨h, h ▸ Bool.eq_false_iff.mpr hb⟩, fun h => h.1⟩

/-- The canonical arguments show the intent to write where they show the flags. -/
theorem writeIntent_canonArg (T : List PyStr) (e : Event) :
    writeIntent e.sc (e.args.map (canonArg T)) = true ↔
      writeIntent e.sc e.args = true ∧ LiteralFlags e := by
  by_cases hcreat : e.sc = py "creat"
  · simp [writeIntent, LiteralFlags, hcreat]
  · rw [writeIntent, writeIntent, if_neg hcreat, if_neg hcreat, List.getElem?_map]
    rcases hf : e.args[flagsIndex e.sc]? with - | f
    · simp
    · by_cases haddr : isAddr f = true
      · have hno : ¬ LiteralFlags e := fun h => by
          rcases h with h | h
          · exact hcreat h
          · rw [h f hf] at haddr
            exact absurd haddr (by decide)
        simp [canonArg, haddr, intHex_token, hno]
      · have hyes : LiteralFlags e := .inr fun g hg => by
          rw [hf] at hg
          cases hg
          exact Bool.eq_false_iff.mpr haddr
        simp [canonArg, haddr, hyes]

theorem not_fault_of_open {e : Event} (h : e.sc ∈ openFamily) :
    e.sc ∉ [py "timeout", py "crash"] := by
  intro hf
  rcases List.mem_pair.mp hf with hf | hf <;> rw [hf] at h <;> exact absurd h (by decide)

section Recorded

variable {F : Type} [Runtime F] {r : Run}

/-- Every event of the canonical stream stands for a recorded one. -/
theorem exists_recorded {i : ℕ} {c : Event}
    (h : (canonicalize F (record r)).events[i]? = some c) :
    ∃ e, (record r).events[i]? = some e ∧ e.sc = c.sc ∧ e.phase = c.phase := by
  rw [canonicalize, canonEvents_getElem?] at h
  obtain ⟨e, he, rfl⟩ := Option.map_eq_some_iff.mp h
  exact ⟨e, he, rfl, rfl⟩

/-- An open call keeps all but its address-shaped texts. -/
theorem canonicalize_open {i : ℕ} {e : Event} (he : (record r).events[i]? = some e)
    (h : e.sc ∈ openFamily) :
    (canonicalize F (record r)).events[i]? = some { e with
      args := e.args.map (canonArg r.addrs)
      result := e.result.map (Option.map (canonArg r.addrs)) } := by
  have hargs : ∀ fds, fdArgs fds e.sc e.args = e.args := by
    intro fds
    cases e.args with
    | nil => rfl
    | cons a as => exact if_neg fun hc => not_carrier_of_open h hc.1
  rw [canonicalize_hook he (not_fault_of_open h), relabel, hargs]

/-- The canonical stream shows an entry with write intent where the recorded one has it and the
flags are literal. -/
theorem enteredAt_canonicalize {n y : ℕ} :
    EnteredAt (canonicalize F (record r)).events n y ↔
      EnteredAt (record r).events n y ∧
        ∀ e, (record r).events[y]? = some e → LiteralFlags e := by
  constructor
  · rintro ⟨hy, ⟨c, hc, hentry, hw⟩, hno⟩
    obtain ⟨e, he, hsc, hphase⟩ := exists_recorded hc
    have hopen : OpenEntry e := ⟨hsc ▸ hentry.1, hphase ▸ hentry.2⟩
    rw [canonicalize_open he hopen.1, Option.some.injEq] at hc
    subst hc
    obtain ⟨hwrite, hlit⟩ := (writeIntent_canonArg r.addrs e).mp hw
    refine ⟨⟨hy, ⟨e, he, hopen, hwrite⟩, fun m hm hmn e' he' hentry' => ?_⟩, fun e' he' => ?_⟩
    · exact hno m hm hmn _ (canonicalize_open he' hentry'.1) hentry'
    · rw [he] at he'
      cases he'
      exact hlit
  · rintro ⟨⟨hy, ⟨e, he, hentry, hw⟩, hno⟩, hlit⟩
    refine ⟨hy, ⟨_, canonicalize_open he hentry.1, hentry,
      (writeIntent_canonArg r.addrs e).mpr ⟨hw, hlit e he⟩⟩, fun m hm hmn c hc hentry' => ?_⟩
    obtain ⟨e', he', hsc, hphase⟩ := exists_recorded hc
    exact hno m hm hmn e' he' ⟨hsc ▸ hentry'.1, hphase ▸ hentry'.2⟩

/-- An exit shows its result in the canonical stream where it is no address. -/
theorem exit_canonicalize {x : ℕ} {a : PyStr} (ha : py "0x" <+: a) :
    (∃ c, (canonicalize F (record r)).events[x]? = some c ∧ OpenExit c ∧
        c.result = some (some a)) ↔
      (∃ e, (record r).events[x]? = some e ∧ OpenExit e ∧ e.result = some (some a)) ∧
        isAddr a = false := by
  constructor
  · rintro ⟨c, hc, hexit, hres⟩
    obtain ⟨e, he, hsc, hphase⟩ := exists_recorded hc
    have hopen : OpenExit e := ⟨hsc ▸ hexit.1, hphase ▸ hexit.2⟩
    rw [canonicalize_open he hopen.1, Option.some.injEq] at hc
    subst hc
    obtain ⟨o, ho, hmap⟩ := Option.map_eq_some_iff.mp hres
    obtain ⟨b, rfl, hb⟩ := Option.map_eq_some_iff.mp hmap
    obtain ⟨rfl, haddr⟩ := (canonArg_eq_iff ha).mp hb
    exact ⟨⟨e, he, hopen, ho⟩, haddr⟩
  · rintro ⟨⟨e, he, hexit, hres⟩, haddr⟩
    refine ⟨_, canonicalize_open he hexit.1, hexit, ?_⟩
    simp [hres, canonArg, haddr]

end Recorded

/-! ### An event divergence -/

/-- The last completed open before position `i` that returned `a` is entered at `y` and left at
`x`. -/
def LastOpen (evs : List Event) (a : PyStr) (i y x : ℕ) : Prop :=
  x < i ∧ EnteredAt evs x y ∧ ReturnedAt evs x a ∧
    ∀ x', x < x' → x' < i → ¬ ReturnedAt evs x' a

/-- A slice has at most six events, none behind the event at `i`, and ends with that event. -/
def Anchored (sl : List (Event × ℕ)) (e : Event) (i : ℕ) : Prop :=
  sl ≠ [] → sl.length ≤ 6 ∧ (∀ p ∈ sl, p.2 ≤ i) ∧ sl.getLast? = some (e, i)

/-- The slice of a write to a named descriptor, with at most four writes to it, starts with the
last open for writing that returned the descriptor in the recorded stream. -/
def Focused (evs canon : List Event) (e : Event) (i : ℕ) : Prop :=
  ∀ k, e.sc ∈ [py "write", py "writev"] → e.args.head? = some (fdName k) →
    (writesAt canon (fdName k) (i + 1)).length ≤ 4 →
    ∃ a y x, (evs[i]?.bind fun e => e.args.head?) = some a ∧ LastOpen evs a i y x ∧
      [y, x] <+: (depSliceAt canon i).map Prod.snd

/-- The slice of the observable event at `i`. -/
def SliceLaw (evs canon : List Event) (i : ℕ) : Prop :=
  ∀ e, canon[i]? = some e → e.sc ∈ obs → Anchored (depSliceAt canon i) e i ∧ Focused evs canon e i

/-- If the event is an `exit_group`, no write went to the descriptor with the number of its
status before, and no open returned that number. -/
def StatusFree (canon : List Event) (i : ℕ) : Prop :=
  ∀ e s, canon[i]? = some e → e.sc = py "exit_group" → e.args.head? = some s →
    writesAt canon s i = [] ∧ ∀ y x, x < i → ¬ OpensTo canon s y x

/-- As many descriptors are returned before `a` in the canonical stream as in the recorded
one. -/
def SameOrdinal (evs canon : List Event) (a : PyStr) : Prop :=
  ∃ j j', FirstReturned evs j a ∧ FirstReturned canon j' a ∧
    returnedBefore evs j = returnedBefore canon j'

/-- If the event is a write to a named descriptor with at most four writes, the canonical stream
gives the descriptor its number, shows the flags of the last open that returned it, and has no
later exit without an entry of its own that returns it. -/
def Mirrored (evs canon : List Event) (i : ℕ) : Prop :=
  ∀ e k a, canon[i]? = some e → e.sc ∈ [py "write", py "writev"] →
    e.args.head? = some (fdName k) → (writesAt canon (fdName k) (i + 1)).length ≤ 4 →
    (evs[i]?.bind fun e => e.args.head?) = some a →
    SameOrdinal evs canon a ∧ ∀ y x, LastOpen evs a i y x →
      (∀ f, evs[y]? = some f → LiteralFlags f) ∧
        ∀ y' x', x < x' → x' < i → ¬ OpensTo canon a y' x'

theorem exists_lastOpen {evs : List Event} {a : PyStr} {i : ℕ} (h : ∃ x < i, ReturnedAt evs x a) :
    ∃ y x, LastOpen evs a i y x := by
  induction i with
  | zero =>
      obtain ⟨x, hx, -⟩ := h
      exact absurd hx (by omega)
  | succ i ih =>
      by_cases hat : ReturnedAt evs i a
      · obtain ⟨y, hy⟩ := EnteredAt.of_pendingAt hat.1
        exact ⟨y, i, by omega, hy, hat, fun x' hx' hn => absurd hx' (by omega)⟩
      · obtain ⟨x, hx, hret⟩ := h
        have hlt : x < i := by
          obtain rfl | hlt : x = i ∨ x < i := by omega
          · exact absurd hret hat
          · exact hlt
        obtain ⟨y, x, hx, hy, hret, hlast⟩ := ih ⟨x, hlt, hret⟩
        refine ⟨y, x, by omega, hy, hret, fun x' hx' hn => ?_⟩
        obtain rfl | hlt : x' = i ∨ x' < i := by omega
        · exact hat
        · exact hlast x' hx' hlt

theorem LastOpen.unique {evs : List Event} {a : PyStr} {i y x y' x' : ℕ}
    (h : LastOpen evs a i y x) (h' : LastOpen evs a i y' x') : y = y' ∧ x = x' := by
  obtain ⟨hx, hent, hret, hlast⟩ := h
  obtain ⟨hx', hent', hret', hlast'⟩ := h'
  obtain rfl : x = x' := by
    by_contra hne
    rcases Nat.lt_or_gt_of_ne hne with hlt | hlt
    · exact hlast x' hlt hx' hret'
    · exact hlast' x hlt hx hret
  exact ⟨hent.unique hent', rfl⟩

/-- The slice of a call that writes is anchored. -/
theorem anchored_of_write {canon : List Event} {i : ℕ} {e : Event} (he : canon[i]? = some e)
    (hw : e.sc ∈ [py "write", py "writev"]) : Anchored (depSliceAt canon i) e i := by
  intro _
  rcases hfd : e.args.head? with - | fd
  · simp_all [depSliceAt]
  · have hslice : depSliceAt canon i =
        chainAt canon (fdLiteral (fdTable canon) fd) fd (i + 1) := by
      rw [depSliceAt, he, Option.bind_some, hfd]
    rw [hslice]
    refine ⟨length_takeLast_le 6 _, fun p hp => ?_, ?_⟩
    · have := (mem_chainAt hp).2.1
      omega
    · have hto : WritesTo fd e := ⟨hw, hfd⟩
      rw [chainAt, writesAt_succ, he, Option.filter_some]
      simp only [hto, decide_true, if_true, Option.toList_some, List.map_cons, List.map_nil]
      rw [← List.append_assoc, takeLast_concat]

/-- The slice of an `exit_group` is anchored when there is none. -/
theorem anchored_iff_of_exit {canon : List Event} {i : ℕ} {e : Event} {s : PyStr}
    (he : canon[i]? = some e) (hexit : e.sc = py "exit_group") (hs : e.args.head? = some s)
    (hname : s.head? ≠ some (ch 'F')) :
    Anchored (depSliceAt canon i) e i ↔
      writesAt canon s i = [] ∧ ∀ y x, x < i → ¬ OpensTo canon s y x := by
  have hno : e.sc ∉ openFamily ∧ ¬ WritesTo s e := by
    rw [WritesTo, hexit]
    exact ⟨by decide, fun h => absurd h.1 (by decide)⟩
  -- the status is taken for a descriptor, though it is none
  have hslice : depSliceAt canon i = chainAt canon s s (i + 1) := by
    rw [depSliceAt, he, Option.bind_some, hs]
    exact congrArg (fun a => chainAt canon a s (i + 1)) (fdLiteral_of_head hname)
  have hwrites : writesAt canon s (i + 1) = writesAt canon s i := by
    rw [writesAt_succ, he, Option.filter_some]
    simp [hno.2]
  have hnot : ∀ y, ¬ OpensTo canon s y i := by
    rintro y ⟨-, f, hf, hopen, -⟩
    rw [he] at hf
    cases hf
    exact hno.1 hopen.1
  -- so a slice ends with the exit itself only by being empty
  have hnil : chainAt canon s s (i + 1) = [] ↔
      writesAt canon s i = [] ∧ ∀ y x, x < i → ¬ OpensTo canon s y x := by
    rw [chainAt, takeLast_eq_nil, List.append_eq_nil_iff, hwrites, and_comm]
    refine and_congr_right fun _ => ?_
    rcases (opener_spec canon s (i + 1)).pair with ⟨hempty, hnone⟩ |
      ⟨y, x, f, f', hpair, -, -, hx, hopens, -⟩
    · exact iff_of_true hempty fun y x hx => hnone y x (by omega)
    · refine iff_of_false (by simp [hpair]) fun h => ?_
      obtain rfl | hlt : x = i ∨ x < i := by omega
      · exact hnot y hopens
      · exact h y x hlt hopens
  rw [hslice, ← hnil]
  constructor
  · intro h
    by_contra hne
    obtain ⟨-, -, hlast⟩ := h hne
    rcases (mem_chainAt (List.mem_of_getLast? hlast)).2.2 with hopen | hw
    · exact hno.1 hopen
    · exact hno.2 hw
  · exact fun h hne => absurd h hne

theorem fdLiteral_mem_or_eq (T : List PyStr) (fd : PyStr) :
    fdLiteral T fd ∈ T ∨ fdLiteral T fd = fd := by
  rw [fdLiteral]
  rcases hfind : T.find? (fun a => token "FD" T a = fd) with - | b
  · exact .inr rfl
  · exact .inl (List.mem_of_find?_eq_some hfind)

/-- The literal of a name looks like the result of an open only if it is that result. -/
theorem fdLiteral_eq_of_canonArg {evs : List Event} {T : List PyStr} {a : PyStr} {k : ℕ}
    (ha : py "0x" <+: a) (h : canonArg T a = fdLiteral (fdTable evs) (fdName k)) :
    fdLiteral (fdTable evs) (fdName k) = a := by
  rcases fdLiteral_mem_or_eq (fdTable evs) (fdName k) with hmem | hname
  · obtain ⟨m, -, -, -, -, -, hhex⟩ := mem_fdTable.mp hmem
    exact ((canonArg_eq_iff hhex).mp h).1.symm
  · rw [hname] at h
    have hhead : a.head? ≠ some (ch 'F') := by
      rw [head_of_hex ha]
      decide
    exact absurd (h ▸ rfl) (head_canonArg hhead T)

section Recorded

variable {F : Type} [Runtime F] {r : Run}

/-- A call whose descriptor is named took a descriptor of the table. -/
theorem literal_of_fdName {i k : ℕ} {c : Event} {a : PyStr}
    (hc : (canonicalize F (record r)).events[i]? = some c) (hsc : c.sc ∈ fdCarriers)
    (hname : c.args.head? = some (fdName k))
    (ha : ((record r).events[i]?.bind fun e => e.args.head?) = some a) :
    a ∈ (walkTo (record r).events i).fds ∧ ordinal (walkTo (record r).events i).fds a = k := by
  obtain ⟨e, he, hes, -⟩ := exists_recorded hc
  have hcarrier : e.sc ∈ fdCarriers := hes ▸ hsc
  rw [he, Option.bind_some] at ha
  obtain ⟨as, hargs⟩ : ∃ as, e.args = a :: as := List.head?_eq_some_iff.mp ha
  rw [canonicalize_carrier he hcarrier, Option.some.injEq] at hc
  subst hc
  by_cases hmem : a ∈ (walkTo (record r).events i).fds
  · refine ⟨hmem, ?_⟩
    simpa [relabel, hargs, fdArgs, hcarrier, hmem, fdName_eq_token, canonArg_fdName,
      fdName_inj] using hname
  · have hhead : (canonArg r.addrs a).head? ≠ some (ch 'F') :=
      head_canonArg (head_carrier (List.mem_of_getElem? he) hcarrier a
        (hargs ▸ List.mem_cons_self)) r.addrs
    have hk : canonArg r.addrs a = fdName k := by
      simpa [relabel, hargs, fdArgs, hmem] using hname
    exact absurd (hk ▸ rfl) hhead

/-- The status of an `exit_group` is no name of a descriptor. -/
theorem head_exitGroup {i : ℕ} {c : Event} (hc : (canonicalize F (record r)).events[i]? = some c)
    (hexit : c.sc = py "exit_group") (s : PyStr) (hs : c.args.head? = some s) :
    s.head? ≠ some (ch 'F') := by
  obtain ⟨e, he, hsc, -⟩ := exists_recorded hc
  have hno : e.sc ∉ [py "timeout", py "crash"] := by
    rw [hsc, hexit]
    decide
  have hcarrier : e.sc ∉ fdCarriers := by
    rw [hsc, hexit]
    decide
  rw [canonicalize_hook he hno, Option.some.injEq] at hc
  subst hc
  rcases hargs : e.args with - | ⟨a, as⟩
  · simp [relabel, hargs, fdArgs] at hs
  · have hhead := head_canonArg (head_hook (mem_hooks (List.mem_of_getElem? he) hno) a
      (hargs ▸ List.mem_cons_self)) r.addrs
    obtain rfl : canonArg r.addrs a = s := by
      simpa [relabel, hargs, fdArgs, hcarrier] using hs
    exact hhead

/-- The name of a descriptor leads back to its literal where both streams number it alike. -/
theorem fdLiteral_canonicalize_iff {i j : ℕ} {a : PyStr} (hj : j < i)
    (h : FirstReturned (record r).events j a) (canon : List Event) :
    fdLiteral (fdTable canon) (fdName (ordinal (walkTo (record r).events i).fds a)) = a ↔
      SameOrdinal (record r).events canon a := by
  have hhex : py "0x" <+: a := by
    obtain ⟨-, -, -, -, -, hhex⟩ := h.1
    exact hhex
  have hhead : a.head? ≠ some (ch 'F') := by
    rw [head_of_hex hhex]
    decide
  have hord : ordinal (walkTo (record r).events i).fds a = returnedBefore (record r).events j :=
    h.ordinal_eq hj
  rw [fdLiteral_fdName_iff hhead, hord]
  constructor
  · rintro ⟨hmem, hnum⟩
    obtain ⟨m, hm⟩ := mem_fdTable.mp hmem
    obtain ⟨j', -, hj'⟩ := exists_firstReturned ⟨m, Nat.lt_succ_self m, hm⟩
    exact ⟨j, j', h, hj', by rw [← hnum, ordinal_fdTable hj']⟩
  · rintro ⟨j₁, j', h₁, hj', hnum⟩
    obtain rfl := h.unique h₁
    exact ⟨mem_fdTable.mpr ⟨j', hj'.1⟩, by rw [ordinal_fdTable hj', hnum]⟩

/-- The opener of the canonical stream is the last open of the recorded one where the flags are
literal and nothing returns the descriptor later. -/
theorem opensTo_of_lastOpen {i y x : ℕ} {a : PyStr} (h : LastOpen (record r).events a i y x)
    (haddr : isAddr a = false) (hlit : ∀ f, (record r).events[y]? = some f → LiteralFlags f) :
    OpensTo (canonicalize F (record r)).events a y x := by
  obtain ⟨-, hent, ⟨-, e, he, hexit, hres, hhex⟩, -⟩ := h
  exact ⟨enteredAt_canonicalize.mpr ⟨hent, hlit⟩,
    (exit_canonicalize hhex).mpr ⟨⟨e, he, hexit, hres⟩, haddr⟩⟩

theorem not_addr_of_returned {x : ℕ} {a : PyStr}
    (h : ReturnedAt (canonicalize F (record r)).events x a) : isAddr a = false := by
  obtain ⟨-, c, hc, hexit, hres, hhex⟩ := h
  exact ((exit_canonicalize hhex).mp ⟨c, hc, hexit, hres⟩).2

/-- When the slice of a write starts with the last open of its descriptor. -/
theorem prefix_lastOpen_iff {i k y x : ℕ} {e : Event} {a : PyStr}
    (he : (canonicalize F (record r)).events[i]? = some e)
    (hw : e.sc ∈ [py "write", py "writev"]) (hname : e.args.head? = some (fdName k))
    (hfew : (writesAt (canonicalize F (record r)).events (fdName k) (i + 1)).length ≤ 4)
    (ha : ((record r).events[i]?.bind fun e => e.args.head?) = some a)
    (h : LastOpen (record r).events a i y x) :
    [y, x] <+: (depSliceAt (canonicalize F (record r)).events i).map Prod.snd ↔
      SameOrdinal (record r).events (canonicalize F (record r)).events a ∧
        (∀ f, (record r).events[y]? = some f → LiteralFlags f) ∧
        ∀ y' x', x < x' → x' < i → ¬ OpensTo (canonicalize F (record r)).events a y' x' := by
  set evs := (record r).events
  set canon := (canonicalize F (record r)).events
  obtain ⟨hx, hent, hret, hlast⟩ := h
  have hcarrier : e.sc ∈ fdCarriers :=
    (by decide : ∀ s ∈ [py "write", py "writev"], s ∈ fdCarriers) e.sc hw
  obtain ⟨-, hord⟩ := literal_of_fdName he hcarrier hname ha
  obtain ⟨j, hj, hfirst⟩ := exists_firstReturned ⟨x, hx, hret⟩
  have hback := fdLiteral_canonicalize_iff hj hfirst canon
  rw [hord] at hback
  have hslice : depSliceAt canon i =
      chainAt canon (fdLiteral (fdTable canon) (fdName k)) (fdName k) (i + 1) := by
    rw [depSliceAt, he, Option.bind_some, hname]
  have hopen : ∃ c, canon[y]? = some c ∧ c.sc ∈ openFamily := by
    obtain ⟨-, ⟨f, hf, hentry, -⟩, -⟩ := hent
    exact ⟨_, canonicalize_open hf hentry.1, hentry.1⟩
  rw [hslice, chainAt_prefix_iff hfew hopen]
  constructor
  · rintro ⟨-, hopens, hno⟩
    have hlit : fdLiteral (fdTable canon) (fdName k) = a := by
      obtain ⟨-, f, hf, hexit, hres, hhex⟩ := hret
      obtain ⟨-, c, hc, -, hcres⟩ := hopens
      rw [canonicalize_open hf hexit.1, Option.some.injEq] at hc
      subst hc
      have hcanon : canonArg r.addrs a = fdLiteral (fdTable canon) (fdName k) := by
        simpa [hres] using hcres
      exact fdLiteral_eq_of_canonArg hhex hcanon
    rw [hlit] at hopens hno
    exact ⟨hback.mp hlit, (enteredAt_canonicalize.mp hopens.1).2,
      fun y' x' hx' hi => hno y' x' hx' (by omega)⟩
  · rintro ⟨hsame, hflags, hno⟩
    have haddr : isAddr a = false := by
      obtain ⟨-, j', -, hj', -⟩ := hsame
      exact not_addr_of_returned hj'.1
    rw [hback.mpr hsame]
    refine ⟨by omega, opensTo_of_lastOpen ⟨hx, hent, hret, hlast⟩ haddr hflags,
      fun y' x' hx' hi hopens => ?_⟩
    obtain rfl | hlt : x' = i ∨ x' < i := by omega
    · -- the focus is a write, no exit
      obtain ⟨-, f, hf, hexit, -⟩ := hopens
      rw [he] at hf
      cases hf
      have hwrite : WritesTo (fdName k) _ := ⟨hw, hname⟩
      exact not_open_of_write hwrite hexit.1
    · exact hno y' x' hx' hlt hopens

/-- **The slice of an event divergence.**  For every recorded run and every event, the slice is
anchored and focused exactly when the event is no `exit_group` whose status was a descriptor, and
no write whose descriptor the canonical stream opens otherwise than the recorded one. -/
theorem depSlice_iff (F : Type) [Runtime F] (r : Run) (i : ℕ) :
    (depSliceAt (canonicalize F (record r)).events i).map Prod.fst =
        depSlice (canonicalize F (record r)).events i ∧
      (SliceLaw (record r).events (canonicalize F (record r)).events i ↔
        StatusFree (canonicalize F (record r)).events i ∧
          Mirrored (record r).events (canonicalize F (record r)).events i) := by
  refine ⟨depSliceAt_fst _ i, ?_⟩
  constructor
  · intro h
    refine ⟨fun e s he hexit hs => ?_, fun e k a he hw hname hfew ha => ?_⟩
    · have hobs : e.sc ∈ obs := by
        rw [hexit]
        decide
      exact (anchored_iff_of_exit he hexit hs (head_exitGroup he hexit s hs)).mp (h e he hobs).1
    · have hobs : e.sc ∈ obs :=
        (by decide : ∀ s ∈ [py "write", py "writev"], s ∈ obs) e.sc hw
      obtain ⟨a', y, x, ha', hopen, hpre⟩ := (h e he hobs).2 k hw hname hfew
      obtain rfl : a = a' := Option.some.inj (ha.symm.trans ha')
      have hall := (prefix_lastOpen_iff he hw hname hfew ha hopen).mp hpre
      refine ⟨hall.1, fun y' x' hopen' => ?_⟩
      obtain ⟨rfl, rfl⟩ := hopen.unique hopen'
      exact hall.2
  · rintro ⟨hstatus, hmirror⟩ e he hobs
    -- an observable event is a write or the exit
    have hcases : e.sc ∈ [py "write", py "writev"] ∨ e.sc = py "exit_group" := by
      simpa [obs, or_assoc] using hobs
    constructor
    · rcases hcases with hw | hexit
      · exact anchored_of_write he hw
      · rcases hs : e.args.head? with - | s
        · intro hne
          simp [depSliceAt, he, hs] at hne
        · exact (anchored_iff_of_exit he hexit hs (head_exitGroup he hexit s hs)).mpr
            (hstatus e s he hexit hs)
    · intro k hw hname hfew
      obtain ⟨f, hf, hsc, -⟩ := exists_recorded he
      have hcarrier : e.sc ∈ fdCarriers :=
        (by decide : ∀ s ∈ [py "write", py "writev"], s ∈ fdCarriers) e.sc hw
      obtain ⟨a, ha⟩ : ∃ a, ((record r).events[i]?.bind fun e => e.args.head?) = some a := by
        rcases hargs : f.args with - | ⟨a, as⟩
        · rw [canonicalize_carrier hf (hsc ▸ hcarrier), Option.some.injEq] at he
          subst he
          simp [relabel, hargs, fdArgs] at hname
        · exact ⟨a, by rw [hf, Option.bind_some, hargs, List.head?_cons]⟩
      obtain ⟨hmem, -⟩ := literal_of_fdName he hcarrier hname ha
      obtain ⟨y, x, hopen⟩ := exists_lastOpen (mem_walkTo_fds.mp hmem)
      obtain ⟨hsame, hrest⟩ := hmirror e k a he hw hname hfew ha
      exact ⟨a, y, x, ha, hopen, (prefix_lastOpen_iff he hw hname hfew ha hopen).mpr
        ⟨hsame, hrest y x hopen⟩⟩

end Recorded

/-- A run that opens an unnamed file for writing, with `O_TMPFILE | O_RDWR`, and writes to it. -/
def tmpfileRun : Run where
  binary := py "/work/model"
  argv := []
  stdin := []
  out := []
  err := []
  hooks := [⟨.open, .enter, [some 0x400000, some 0x410002, some 0x180]⟩,
    ⟨.open, .exit, [some 0x400000, some 0x410002, some 0x180, some 3]⟩,
    ⟨.write, .enter, [some 3, some 0x401000, some 5]⟩,
    ⟨.write, .exit, [some 3, some 0x401000, some 5, some 5]⟩,
    ⟨.exitGroup, .enter, [some 0]⟩]
  ending := .finished 0
  files := []
  nodup_files := List.nodup_nil

/-- The slice of its write has no opener: the canonical flags are an address. -/
theorem sliceLaw_not_always :
    ¬ ∀ (r : Run) (i : ℕ),
      SliceLaw (record r).events (canonicalize ZeroFloat (record r)).events i := by
  intro h
  have he : (canonicalize ZeroFloat (record tmpfileRun)).events[2]? =
      some ⟨py "enter", py "write", [fdName 0, py "ADDR_2", py "0x5"], none⟩ := by decide +kernel
  have hfew : (writesAt (canonicalize ZeroFloat (record tmpfileRun)).events (fdName 0)
      3).length ≤ 4 := by decide +kernel
  have hpos : (depSliceAt (canonicalize ZeroFloat (record tmpfileRun)).events 2).map Prod.snd =
      [2] := by decide +kernel
  obtain ⟨a, y, x, -, -, hpre⟩ := (h tmpfileRun 2 _ he (by decide)).2 0 (by decide) rfl hfew
  rw [hpos] at hpre
  exact absurd hpre.length_le (by simp)

end ReSchema
