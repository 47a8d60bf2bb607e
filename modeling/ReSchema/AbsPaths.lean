/-
ReSchema/AbsPaths.lean

The paths of a text (`ABSPATH` in `exec/canonical.py`).

`absPathSub` replaces every path by a name `PATH_<n>`.  Such a name can itself
be a component of a path: in `/rootfs//etc/passwd` the expression passes over
`/rootfs/`, since an empty component ends a path, and what is left of the text,
`/rootfs/PATH_0`, is a path again.

`settled_pathSub_iff` says for which texts nothing is left to replace
(`Settled`).  Its condition speaks of the names that follow the slashes of the
text (`nameCount`), not of the scan: the scan has one step lemma for a path and one
for any other code point, and the proof follows it (`scan_induct`).
-/
import ReSchema.Canonical
import ReSchema.Py.Interpreter

namespace ReSchema

open Py

/-- `\w` matches in ASCII the letters, the digits and the underscore. -/
class AsciiWords (F : Type) [Runtime F] : Prop where
  isWord_ascii : ∀ c : CodePoint, c.val < 0x80 → Runtime.isWord F c = isAsciiWord c

instance : AsciiWords ZeroFloat := ⟨fun _ _ => rfl⟩

section Texts

variable (F : Type) [Runtime F]

/-! ### Names behind a slash -/

/-- The names that the expression can take at the start of a text, the text behind them, and
their number. -/
def names (s : PyStr) : PyStr × PyStr × ℕ := pathNames F s.length s

def nameCount (s : PyStr) : ℕ := (names F s).2.2

/-- What is left of a text behind its names. -/
def behind (s : PyStr) : PyStr := (names F s).2.1

/-- The text does not begin inside a name. -/
def OffName (s : PyStr) : Prop := ∀ c, s.head? = some c → isPathChar F c = false

/-- The text is a name. -/
def IsName (w : PyStr) : Prop := w ≠ [] ∧ ∀ c ∈ w, isPathChar F c = true

/-- No name goes on here, and none follows behind a slash. -/
def Ends (s : PyStr) : Prop := OffName F s ∧ ∀ r, s = ch '/' :: r → nameCount F r = 0

variable {F}

theorem pathNames_fuel {n m : ℕ} {s : PyStr} (hn : s.length ≤ n) (hm : s.length ≤ m) :
    pathNames F n s = pathNames F m s := by
  induction n generalizing m s with
  | zero =>
      obtain rfl : s = [] := List.length_eq_zero_iff.mp (by omega)
      cases m <;> simp [pathNames]
  | succ n ih =>
      cases m with
      | zero =>
          obtain rfl : s = [] := List.length_eq_zero_iff.mp (by omega)
          simp [pathNames]
      | succ m =>
          rw [pathNames, pathNames]
          by_cases hname : s.takeWhile (isPathChar F) = []
          · simp only [hname, if_true]
          · rcases hrest : s.dropWhile (isPathChar F) with - | ⟨c, r⟩
            · simp only [hname, if_false]
            · have hlen := congrArg List.length
                (List.takeWhile_append_dropWhile (p := isPathChar F) (l := s))
              rw [hrest, List.length_append, List.length_cons] at hlen
              have hpos := List.length_pos_of_ne_nil hname
              have hr : pathNames F n r = pathNames F m r := ih (by omega) (by omega)
              simp only [hname, if_false, hr]

theorem names_of_offName {s : PyStr} (h : OffName F s) : names F s = ([], s, 0) := by
  cases s with
  | nil => rfl
  | cons c r =>
      have htake : (c :: r).takeWhile (isPathChar F) = [] := by
        rw [List.takeWhile_cons, h c rfl]
        rfl
      rw [names, List.length_cons, pathNames, if_pos htake]

theorem span_name {w rest : PyStr} (hw : IsName F w) (hrest : OffName F rest) :
    (w ++ rest).takeWhile (isPathChar F) = w ∧ (w ++ rest).dropWhile (isPathChar F) = rest := by
  have htake : rest.takeWhile (isPathChar F) = [] ∧ rest.dropWhile (isPathChar F) = rest := by
    cases rest with
    | nil => exact ⟨rfl, rfl⟩
    | cons c r => simp [hrest c rfl]
  rw [List.takeWhile_append_of_pos hw.2, List.dropWhile_append_of_pos hw.2, htake.1, htake.2,
    List.append_nil]
  exact ⟨rfl, rfl⟩

theorem names_last {w rest : PyStr} (hw : IsName F w) (hrest : Ends F rest) :
    names F (w ++ rest) = (w, rest, 1) := by
  obtain ⟨htake, hdrop⟩ := span_name hw hrest.1
  have hlen : (w ++ rest).length = (w ++ rest).length - 1 + 1 := by
    have := List.length_pos_of_ne_nil hw.1
    rw [List.length_append]
    omega
  rw [names, hlen, pathNames, htake, hdrop, if_neg hw.1]
  rcases rest with - | ⟨c, r⟩
  · rfl
  · refine if_neg fun hc => ?_
    obtain ⟨rfl, hpos⟩ := hc
    have hzero := hrest.2 r rfl
    have hfuel : pathNames F ((w ++ ch '/' :: r).length - 1) r = names F r :=
      pathNames_fuel (by simp) le_rfl
    rw [hfuel] at hpos
    exact absurd hzero (by rw [nameCount]; omega)

theorem names_more {w r : PyStr} (hslash : isPathChar F (ch '/') = false) (hw : IsName F w)
    (hr : 0 < nameCount F r) :
    names F (w ++ ch '/' :: r) = (w ++ ch '/' :: (names F r).1, behind F r, nameCount F r + 1) := by
  have hoff : OffName F (ch '/' :: r) := fun c hc => by
    cases hc
    exact hslash
  obtain ⟨htake, hdrop⟩ := span_name hw hoff
  have hpos := List.length_pos_of_ne_nil hw.1
  have hlen : (w ++ ch '/' :: r).length = (w ++ ch '/' :: r).length - 1 + 1 := by
    rw [List.length_append]
    omega
  have hfuel : pathNames F ((w ++ ch '/' :: r).length - 1) r = names F r :=
    pathNames_fuel (by simp) le_rfl
  rw [names, hlen, pathNames, htake, hdrop, if_neg hw.1]
  simp only [hfuel]
  exact if_pos ⟨trivial, hr⟩

/-! ### Texts by their names -/

variable [AsciiWords F]

omit [AsciiWords F] in
theorem nameCount_of_offName {s : PyStr} (h : OffName F s) : nameCount F s = 0 := by
  rw [nameCount, names_of_offName h]

theorem not_pathChar_slash : isPathChar F (ch '/') = false := by
  rw [isPathChar, AsciiWords.isWord_ascii _ (by decide)]
  decide

theorem offName_slash (r : PyStr) : OffName F (ch '/' :: r) := fun c hc => by
  cases hc
  exact not_pathChar_slash

omit [AsciiWords F] in
/-- A text begins with no name, with a single one, or with a name and more behind a slash. -/
theorem names_cases (s : PyStr) :
    OffName F s ∨ (∃ w rest, s = w ++ rest ∧ IsName F w ∧ Ends F rest) ∨
      ∃ w r, s = w ++ ch '/' :: r ∧ IsName F w ∧ 0 < nameCount F r := by
  have hsplit := List.takeWhile_append_dropWhile (p := isPathChar F) (l := s)
  have hword : ∀ c ∈ s.takeWhile (isPathChar F), isPathChar F c = true := fun c hc =>
    List.mem_takeWhile_imp hc
  have hoff : OffName F (s.dropWhile (isPathChar F)) := by
    intro c hc
    have := List.head?_dropWhile_not (isPathChar F) s
    rw [hc] at this
    simpa using this
  by_cases hname : s.takeWhile (isPathChar F) = []
  · left
    rw [hname, List.nil_append] at hsplit
    rwa [hsplit] at hoff
  right
  by_cases hends : Ends F (s.dropWhile (isPathChar F))
  · exact .inl ⟨_, _, hsplit.symm, ⟨hname, hword⟩, hends⟩
  · obtain ⟨r, hr, hpos⟩ : ∃ r, s.dropWhile (isPathChar F) = ch '/' :: r ∧ nameCount F r ≠ 0 := by
      by_contra hno
      exact hends ⟨hoff, fun r hr => by_contra fun hne => hno ⟨r, hr, hne⟩⟩
    exact .inr ⟨_, r, by rw [← hr, hsplit], ⟨hname, hword⟩, Nat.pos_of_ne_zero hpos⟩

omit [AsciiWords F] in
/-- Induction over the names at the start of a text. -/
theorem names_induct {motive : PyStr → Prop} (off : ∀ s, OffName F s → motive s)
    (last : ∀ w rest, IsName F w → Ends F rest → motive (w ++ rest))
    (more : ∀ w r, IsName F w → 0 < nameCount F r → motive r → motive (w ++ ch '/' :: r))
    (s : PyStr) : motive s := by
  induction hn : s.length using Nat.strong_induction_on generalizing s with
  | _ n ih =>
      rcases names_cases (F := F) s with hoff | ⟨w, rest, rfl, hw, hrest⟩ | ⟨w, r, rfl, hw, hr⟩
      · exact off s hoff
      · exact last w rest hw hrest
      · refine more w r hw hr (ih r.length ?_ r rfl)
        rw [← hn, List.length_append, List.length_cons]
        omega

theorem names_append (s : PyStr) : (names F s).1 ++ behind F s = s := by
  induction s using names_induct (F := F) with
  | off s h => rw [behind, names_of_offName h, List.nil_append]
  | last w rest hw hrest => rw [behind, names_last hw hrest]
  | more w r hw hr ih =>
      rw [behind, names_more not_pathChar_slash hw hr, List.append_assoc, List.cons_append, ih]

theorem length_behind_le (s : PyStr) : (behind F s).length ≤ s.length := by
  have := congrArg List.length (names_append (F := F) s)
  rw [List.length_append] at this
  omega

/-- Behind its names a text has no more of them. -/
theorem ends_behind {s : PyStr} (h : 0 < nameCount F s) : Ends F (behind F s) := by
  induction s using names_induct (F := F) with
  | off s hoff => rw [nameCount_of_offName hoff] at h; exact absurd h (by omega)
  | last w rest hw hrest => rwa [behind, names_last hw hrest]
  | more w r hw hr ih =>
      rw [behind, names_more not_pathChar_slash hw hr]
      exact ih hr

theorem offName_of_nameCount {s : PyStr} (h : nameCount F s = 0) : OffName F s := by
  rcases names_cases (F := F) s with hoff | ⟨w, rest, rfl, hw, hrest⟩ | ⟨w, r, rfl, hw, hr⟩
  · exact hoff
  · rw [nameCount, names_last hw hrest] at h
    exact absurd h one_ne_zero
  · rw [nameCount, names_more not_pathChar_slash hw hr] at h
    exact absurd h (by simp)

/-- A text with one name. -/
theorem exists_of_nameCount_one {s : PyStr} (h : nameCount F s = 1) :
    ∃ w, s = w ++ behind F s ∧ IsName F w ∧ Ends F (behind F s) := by
  rcases names_cases (F := F) s with hoff | ⟨w, rest, rfl, hw, hrest⟩ | ⟨w, r, rfl, hw, hr⟩
  · rw [nameCount_of_offName hoff] at h
    exact absurd h (by decide)
  · refine ⟨w, ?_, hw, ?_⟩ <;> rw [behind, names_last hw hrest]
    exact hrest
  · rw [nameCount, names_more not_pathChar_slash hw hr] at h
    exact absurd h (by dsimp only; omega)

/-! ### The scan -/

/-- `ABSPATH.sub(path_of, s)` with the table of paths. -/
def pathSub (F : Type) [Runtime F] (P : List PyStr) (s : PyStr) : List PyStr × PyStr :=
  absPathSub F s.length P s

omit [AsciiWords F] in
theorem absPathSub_nil (n : ℕ) (P : List PyStr) : absPathSub F n P [] = (P, []) := by
  cases n <;> rfl

theorem absPathSub_fuel {n m : ℕ} {s : PyStr} (P : List PyStr) (hn : s.length ≤ n)
    (hm : s.length ≤ m) : absPathSub F n P s = absPathSub F m P s := by
  induction n generalizing m P s with
  | zero =>
      obtain rfl : s = [] := List.length_eq_zero_iff.mp (by omega)
      rw [absPathSub_nil, absPathSub_nil]
  | succ n ih =>
      rcases s with - | ⟨c, r⟩
      · rw [absPathSub_nil, absPathSub_nil]
      rw [List.length_cons] at hn hm
      obtain ⟨m, rfl⟩ : ∃ m', m = m' + 1 := ⟨m - 1, by omega⟩
      have hbehind := length_behind_le (F := F) r
      rw [absPathSub, absPathSub]
      split_ifs
      · have hrec : ∀ P, absPathSub F n P (pathNames F r.length r).2.1 =
            absPathSub F m P (pathNames F r.length r).2.1 := fun P =>
          ih P (by rw [behind, names] at hbehind; omega) (by rw [behind, names] at hbehind; omega)
        dsimp only
        rw [hrec]
      · have hrec : absPathSub F n P r = absPathSub F m P r := ih P (by omega) (by omega)
        rw [hrec]

omit [AsciiWords F] in
@[simp] theorem pathSub_nil (P : List PyStr) : pathSub F P [] = (P, []) := rfl

/-- The scan at a path. -/
theorem pathSub_path {r : PyStr} (h : 2 ≤ nameCount F r) (P : List PyStr) :
    pathSub F P (ch '/' :: r) =
      ((pathSub F (sight P (ch '/' :: (names F r).1)) (behind F r)).1,
        token "PATH" P (ch '/' :: (names F r).1) ++
          (pathSub F (sight P (ch '/' :: (names F r).1)) (behind F r)).2) := by
  rw [pathSub, List.length_cons, absPathSub, if_pos ⟨rfl, h⟩]
  dsimp only
  have hfuel := absPathSub_fuel (F := F) (sight P (ch '/' :: (names F r).1))
    (length_behind_le (F := F) r) le_rfl
  rw [names, behind, names] at hfuel
  rw [hfuel]
  rfl

omit [AsciiWords F] in
/-- The scan elsewhere. -/
theorem pathSub_step {c : CodePoint} {r : PyStr} (h : ¬ (c = ch '/' ∧ 2 ≤ nameCount F r))
    (P : List PyStr) :
    pathSub F P (c :: r) = ((pathSub F P r).1, c :: (pathSub F P r).2) := by
  rw [pathSub, List.length_cons, absPathSub]
  exact if_neg h

/-- Induction over the scan. -/
theorem scan_induct {motive : PyStr → Prop} (nil : motive [])
    (path : ∀ r, 2 ≤ nameCount F r → motive (behind F r) → motive (ch '/' :: r))
    (step : ∀ c r, ¬ (c = ch '/' ∧ 2 ≤ nameCount F r) → motive r → motive (c :: r))
    (s : PyStr) : motive s := by
  induction hn : s.length using Nat.strong_induction_on generalizing s with
  | _ n ih =>
      rcases s with - | ⟨c, r⟩
      · exact nil
      rw [List.length_cons] at hn
      by_cases h : c = ch '/' ∧ 2 ≤ nameCount F r
      · obtain ⟨rfl, hcount⟩ := h
        have hbehind := length_behind_le (F := F) r
        exact path r hcount (ih (behind F r).length (by omega) _ rfl)
      · exact step c r h (ih r.length (by omega) r rfl)

/-! ### Texts without a path -/

/-- No path stands in the text. -/
def Settled (F : Type) [Runtime F] : PyStr → Prop
  | [] => True
  | c :: r => (c = ch '/' → nameCount F r < 2) ∧ Settled F r

omit [AsciiWords F] in
theorem pathSub_of_settled {s : PyStr} (h : Settled F s) (P : List PyStr) :
    pathSub F P s = (P, s) := by
  induction s with
  | nil => rfl
  | cons c r ih =>
      have hno : ¬ (c = ch '/' ∧ 2 ≤ nameCount F r) := fun hc => by
        have := h.1 hc.1
        omega
      rw [pathSub_step hno, ih h.2]

omit [AsciiWords F] in
theorem settled_append {s : PyStr} (hs : ch '/' ∉ s) (t : PyStr) :
    Settled F (s ++ t) ↔ Settled F t := by
  induction s with
  | nil => rfl
  | cons c s ih =>
      obtain ⟨hc, hs⟩ := List.ne_and_not_mem_of_not_mem_cons hs
      rw [List.cons_append, Settled, ih hs]
      exact and_iff_right fun h => absurd h.symm hc

theorem slash_not_mem_path (P : List PyStr) (a : PyStr) : ch '/' ∉ token "PATH" P a :=
  slash_not_mem_token "PATH" (by decide) P a

/-- Every replacement takes slashes away. -/
theorem slashes_pathSub (P : List PyStr) (s : PyStr) :
    (pathSub F P s).2.count (ch '/') ≤ s.count (ch '/') ∧
      (¬ Settled F s → (pathSub F P s).2.count (ch '/') < s.count (ch '/')) := by
  induction s using scan_induct (F := F) generalizing P with
  | nil => exact ⟨le_rfl, fun h => absurd trivial h⟩
  | path r hr ih =>
      have hsplit := congrArg (List.count (ch '/')) (names_append (F := F) r)
      have hih := (ih (sight P (ch '/' :: (names F r).1))).1
      have htoken := List.count_eq_zero_of_not_mem
        (slash_not_mem_path P (ch '/' :: (names F r).1))
      rw [List.count_append] at hsplit
      rw [pathSub_path hr, List.count_append, htoken, List.count_cons_self]
      constructor
      · omega
      · intro _
        omega
  | step c r hno ih =>
      obtain ⟨hle, hlt⟩ := ih P
      rw [pathSub_step hno, List.count_cons, List.count_cons]
      refine ⟨by omega, fun hset => ?_⟩
      have := hlt fun hr => hset ⟨fun hc => by
        by_contra hge
        exact hno ⟨hc, by omega⟩, hr⟩
      omega

/-- A text that the scan keeps has no path. -/
theorem pathSub_eq_self_iff {P : List PyStr} {s : PyStr} :
    (pathSub F P s).2 = s ↔ Settled F s := by
  constructor
  · intro h
    by_contra hset
    have := (slashes_pathSub P s).2 hset
    rw [h] at this
    exact absurd this (lt_irrefl _)
  · exact fun h => by rw [pathSub_of_settled h]

/-! ### What the scan leaves -/

/-- The text begins with a path. -/
def StartsPath (F : Type) [Runtime F] (s : PyStr) : Prop :=
  ∃ r, s = ch '/' :: r ∧ 2 ≤ nameCount F r

/-- The text begins with an empty component, and a path behind it. -/
def EmptyThenPath (F : Type) [Runtime F] (s : PyStr) : Prop :=
  ∃ r, s = ch '/' :: r ∧ StartsPath F r

/-- The text ends with a slash and a name. -/
def AfterName (F : Type) [Runtime F] (s : PyStr) : Prop :=
  ∃ t w, s = t ++ ch '/' :: w ∧ IsName F w

/-- A slash with this text behind it begins no path, and begins one when the paths behind it
have been replaced: either a single name or a path stands between it and an empty component
with a path behind. -/
def RejoinsAt (F : Type) [Runtime F] (s : PyStr) : Prop :=
  nameCount F s = 1 ∧ EmptyThenPath F (behind F s) ∨
    ∃ r, s = ch '/' :: r ∧ 2 ≤ nameCount F r ∧ EmptyThenPath F (behind F r)

/-- **Rejoining.**  Somewhere in the text two slashes stand with a path behind them, and in front
of them either a slash with a single name, which is no part of a longer path, or two slashes with
a path. -/
def Rejoins (F : Type) [Runtime F] (s : PyStr) : Prop :=
  ∃ t u, s = t ++ ch '/' :: u ∧
    ((nameCount F u = 1 ∧ ¬ AfterName F t ∧ EmptyThenPath F (behind F u)) ∨
      ∃ r, u = ch '/' :: r ∧ 2 ≤ nameCount F r ∧ EmptyThenPath F (behind F r))

theorem isName_token (P : List PyStr) (a : PyStr) : IsName F (token "PATH" P a) := by
  have hascii : ∀ c : CodePoint, c.val < 0x80 → isAsciiWord c = true →
      isPathChar F c = true := fun c hc hw => by
    rw [isPathChar, AsciiWords.isWord_ascii c hc, hw]
    rfl
  refine ⟨by simp [token], fun c hc => ?_⟩
  rw [token, List.mem_append, List.mem_cons] at hc
  rcases hc with hc | rfl | hc
  · have hall : ((py "PATH").all fun c => decide (c.val < 0x80) && isAsciiWord c) = true := by
      decide
    have := List.all_eq_true.mp hall c hc
    rw [Bool.and_eq_true, decide_eq_true_eq] at this
    exact hascii c this.1 this.2
  · exact hascii _ (by decide) (by decide)
  · have hdigit := isDigit_of_mem_natText hc
    refine hascii c ?_ (by rw [isAsciiWord, hdigit]; rfl)
    simp only [isDigit, Bool.and_eq_true, decide_eq_true_eq] at hdigit
    omega

omit [AsciiWords F] in
/-- Off a name, the scan leaves a name only where it replaces a path. -/
theorem offName_pathSub {s : PyStr} (h : OffName F s) (hs : ¬ StartsPath F s) (P : List PyStr) :
    OffName F (pathSub F P s).2 := by
  rcases s with - | ⟨c, r⟩
  · exact h
  · have hno : ¬ (c = ch '/' ∧ 2 ≤ nameCount F r) := fun hc => hs ⟨r, by rw [hc.1], hc.2⟩
    rw [pathSub_step hno]
    intro d hd
    cases hd
    exact h c rfl

/-- A name with what the scan makes of the text behind it. -/
theorem nameCount_name_pathSub {w rest : PyStr} (hw : IsName F w) (hrest : Ends F rest)
    (P : List PyStr) : 2 ≤ nameCount F (w ++ (pathSub F P rest).2) ↔ EmptyThenPath F rest := by
  rcases rest with - | ⟨c, r⟩
  · have hcount : nameCount F (w ++ []) = 1 := by rw [nameCount, names_last hw hrest]
    refine iff_of_false (by rw [pathSub_nil, hcount]; decide) ?_
    rintro ⟨r, hr, -⟩
    cases hr
  · -- only a slash can join two names
    by_cases hc : c = ch '/'
    · subst hc
      have hzero := hrest.2 r rfl
      have hoff := offName_of_nameCount hzero
      rw [pathSub_step (by omega)]
      -- an empty name before a path: the slash stays and the token behind it is a name
      by_cases hstart : StartsPath F r
      · refine iff_of_true ?_ ⟨r, rfl, hstart⟩
        obtain ⟨q, rfl, hq⟩ := hstart
        have hpos : 0 < nameCount F (pathSub F P (ch '/' :: q)).2 := by
          rw [pathSub_path hq, Nat.pos_iff_ne_zero]
          intro hz
          have hname := isName_token (F := F) P (ch '/' :: (names F q).1)
          have := offName_of_nameCount hz (ch 'P') rfl
          rw [hname.2 (ch 'P') (by simp [token, py])] at this
          exact absurd this (by decide)
        rw [nameCount, names_more not_pathChar_slash hw hpos]
        show 2 ≤ _ + 1
        omega
      · refine iff_of_false ?_ ?_
        swap
        · rintro ⟨q, hq, hstart'⟩
          cases hq
          exact hstart hstart'
        have hends : Ends F (ch '/' :: (pathSub F P r).2) := by
          refine ⟨offName_slash _, fun q hq => ?_⟩
          cases hq
          exact nameCount_of_offName (offName_pathSub hoff hstart P)
        rw [nameCount, names_last hw hends]
        exact Nat.not_succ_le_self 1
    · rw [pathSub_step fun h => hc h.1]
      refine iff_of_false ?_ ?_
      swap
      · rintro ⟨q, hq, -⟩
        cases hq
        exact hc rfl
      have hends : Ends F (c :: (pathSub F P r).2) := by
        refine ⟨fun d hd => ?_, fun q hq => absurd (by cases hq; rfl) hc⟩
        cases hd
        exact hrest.1 c rfl
      rw [nameCount, names_last hw hends]
      exact Nat.not_succ_le_self 1

theorem pathSub_name {w : PyStr} (hw : ∀ c ∈ w, isPathChar F c = true) (rest : PyStr)
    (P : List PyStr) : (pathSub F P (w ++ rest)).2 = w ++ (pathSub F P rest).2 := by
  induction w with
  | nil => rfl
  | cons c w ih =>
      obtain ⟨hc, hw⟩ := List.forall_mem_cons.mp hw
      have hno : c ≠ ch '/' := by
        rintro rfl
        rw [not_pathChar_slash] at hc
        exact absurd hc (by decide)
      rw [List.cons_append, pathSub_step (fun h => hno h.1), ih hw, List.cons_append]

/-- A slash that the scan leaves begins a path of the result exactly where the text rejoins. -/
theorem nameCount_pathSub_iff {s : PyStr} (h : nameCount F s < 2) (P : List PyStr) :
    2 ≤ nameCount F (pathSub F P s).2 ↔ RejoinsAt F s := by
  -- the text starts with one name, or with none: then with a path, or with neither
  obtain hone | hzero : nameCount F s = 1 ∨ nameCount F s = 0 := by omega
  · obtain ⟨w, hs, hw, hrest⟩ := exists_of_nameCount_one hone
    have hno : ∀ r, s ≠ ch '/' :: r := by
      rintro r rfl
      rw [nameCount_of_offName (offName_slash r)] at hone
      exact absurd hone (by decide)
    have hout : (pathSub F P s).2 = w ++ (pathSub F P (behind F s)).2 := by
      rw [← pathSub_name hw.2 (behind F s) P, ← hs]
    rw [hout, nameCount_name_pathSub hw hrest]
    constructor
    · exact fun he => .inl ⟨hone, he⟩
    · rintro (⟨-, he⟩ | ⟨r, hr, -⟩)
      · exact he
      · exact absurd hr (hno r)
  · have hoff := offName_of_nameCount hzero
    by_cases hstart : StartsPath F s
    · obtain ⟨r, rfl, hr⟩ := hstart
      rw [pathSub_path hr, nameCount_name_pathSub (isName_token P _) (ends_behind (by omega))]
      constructor
      · exact fun he => .inr ⟨r, rfl, hr, he⟩
      · rintro (⟨hone, -⟩ | ⟨q, hq, -, he⟩)
        · omega
        · cases hq
          exact he
    · have hz : nameCount F (pathSub F P s).2 = 0 := nameCount_of_offName (offName_pathSub hoff hstart P)
      refine iff_of_false (by omega) ?_
      rintro (⟨hone, -⟩ | ⟨q, hq, hcount, -⟩)
      · omega
      · exact hstart ⟨q, hq, hcount⟩

/-! ### What the scan leaves in a whole text -/

omit [AsciiWords F] in
theorem AfterName.append_left {t : PyStr} (h : AfterName F t) (u : PyStr) :
    AfterName F (u ++ t) := by
  obtain ⟨v, w, rfl, hw⟩ := h
  exact ⟨u ++ v, w, (List.append_assoc u v _).symm, hw⟩

omit [AsciiWords F] in
/-- Behind a code point that is no slash in front of a name, nothing changes. -/
theorem afterName_cons {c : CodePoint} {t : PyStr} (h : ¬ (c = ch '/' ∧ IsName F t)) :
    AfterName F (c :: t) ↔ AfterName F t := by
  constructor
  · rintro ⟨u, w, hu, hw⟩
    rcases u with - | ⟨d, u⟩
    · obtain ⟨rfl, rfl⟩ := List.cons.inj hu
      exact absurd ⟨rfl, hw⟩ h
    · obtain ⟨-, rfl⟩ := List.cons.inj hu
      exact ⟨u, w, rfl, hw⟩
  · exact fun h' => h'.append_left [c]

omit [AsciiWords F] in
/-- A text off a name hides the names in front of it. -/
theorem afterName_append_iff {s t : PyStr} (ht : t ≠ []) (hoff : OffName F t) :
    AfterName F (s ++ t) ↔ AfterName F t := by
  induction s with
  | nil => rfl
  | cons c s ih =>
      rw [List.cons_append, afterName_cons, ih]
      rintro ⟨-, -, hall⟩
      obtain ⟨d, t, rfl⟩ := List.exists_cons_of_ne_nil ht
      have := hall d (List.mem_append_right s List.mem_cons_self)
      rw [hoff d rfl] at this
      exact absurd this (by decide)

/-- A slash among the names of a text has a name behind it; the last of them stands behind a
name. -/
theorem slash_inside {s t u : PyStr} (hs : s = t ++ ch '/' :: u)
    (hlen : t.length < (names F s).1.length) :
    0 < nameCount F u ∧ (nameCount F u = 1 → AfterName F (ch '/' :: t)) := by
  induction s using names_induct (F := F) generalizing t with
  | off s hoff =>
      rw [names_of_offName hoff] at hlen
      exact absurd hlen (by simp)
  | last w rest hw hrest =>
      rw [names_last hw hrest] at hlen
      have hmem : ch '/' ∈ w := by
        have hget := congrArg (fun l => l[t.length]?) hs
        simp only [List.getElem?_append_left hlen, List.getElem?_append_right (le_refl t.length),
          Nat.sub_self, List.getElem?_cons_zero] at hget
        exact List.mem_of_getElem? hget
      have := hw.2 _ hmem
      rw [not_pathChar_slash] at this
      exact absurd this (by decide)
  | more w r hw hr ih =>
      rw [names_more not_pathChar_slash hw hr, List.length_append, List.length_cons] at hlen
      rcases List.append_eq_append_iff.mp hs with ⟨x, rfl, hx⟩ | ⟨x, rfl, hx⟩
      · rcases x with - | ⟨c, x⟩
        · -- the slash behind the first name
          obtain ⟨-, rfl⟩ := List.cons.inj hx
          exact ⟨hr, fun _ => ⟨[], w, by simp, hw⟩⟩
        · obtain ⟨rfl, rfl⟩ := List.cons.inj hx
          obtain ⟨hpos, hafter⟩ := ih rfl (by simp at hlen; omega)
          exact ⟨hpos, fun hone => (hafter hone).append_left (ch '/' :: w)⟩
      · rcases x with - | ⟨c, x⟩
        · obtain ⟨-, rfl⟩ := List.cons.inj hx
          exact ⟨hr, fun _ => ⟨[], t, rfl, by simpa using hw⟩⟩
        · -- a slash inside the first name
          obtain ⟨rfl, -⟩ := List.cons.inj hx
          have := hw.2 (ch '/') (by simp)
          rw [not_pathChar_slash] at this
          exact absurd this (by decide)

/-- A path swallows its slashes: the text rejoins where what is behind it does. -/
theorem rejoins_path {r : PyStr} (hr : 2 ≤ nameCount F r) :
    Rejoins F (ch '/' :: r) ↔ Rejoins F (behind F r) := by
  have hends := ends_behind (s := r) (by omega : 0 < nameCount F r)
  have hsplit := names_append (F := F) r
  constructor
  · rintro ⟨t, u, hs, hcase⟩
    rcases t with - | ⟨c, t⟩
    · obtain ⟨-, rfl⟩ := List.cons.inj hs
      rcases hcase with ⟨hone, -⟩ | ⟨q, rfl, -⟩
      · omega
      · rw [nameCount_of_offName (offName_slash q)] at hr
        exact absurd hr (by decide)
    · obtain ⟨rfl, hr'⟩ := List.cons.inj hs
      by_cases hlen : t.length < (names F r).1.length
      · obtain ⟨hpos, hafter⟩ := slash_inside hr' hlen
        rcases hcase with ⟨hone, hno, -⟩ | ⟨q, rfl, -⟩
        · exact absurd (hafter hone) hno
        · rw [nameCount_of_offName (offName_slash q)] at hpos
          exact absurd hpos (by decide)
      · -- the slash stands behind the path
        rw [← hsplit] at hr'
        obtain ⟨x, rfl, hx⟩ : ∃ x, t = (names F r).1 ++ x ∧ behind F r = x ++ ch '/' :: u := by
          rcases List.append_eq_append_iff.mp hr' with ⟨x, ht, hx⟩ | ⟨x, ht, hx⟩
          · exact ⟨x, ht, hx⟩
          · rw [ht, List.length_append] at hlen
            obtain rfl : x = [] := List.length_eq_zero_iff.mp (by omega)
            exact ⟨[], by simpa using ht.symm, by simpa using hx.symm⟩
        refine ⟨x, u, hx, hcase.imp_left fun h => ⟨h.1, fun hafter => h.2.1 ?_, h.2.2⟩⟩
        exact (hafter.append_left (names F r).1).append_left [ch '/']
  · rintro ⟨x, u, hx, hcase⟩
    refine ⟨ch '/' :: ((names F r).1 ++ x), u, ?_, ?_⟩
    · rw [List.cons_append, List.append_assoc, ← hx, hsplit]
    refine hcase.imp_left fun ⟨hone, hno, he⟩ => ⟨hone, fun hafter => hno ?_, he⟩
    rcases x with - | ⟨d, x⟩
    · have := hends.2 u hx
      omega
    · have hoff : OffName F (d :: x) := fun c hc => hends.1 c (by rw [hx]; exact hc)
      have hfront : AfterName F ((ch '/' :: (names F r).1) ++ d :: x) := hafter
      exact (afterName_append_iff (List.cons_ne_nil d x) hoff).mp hfront

/-- Elsewhere the scan goes on by one code point. -/
theorem rejoins_step {c : CodePoint} {r : PyStr} (hno : ¬ (c = ch '/' ∧ 2 ≤ nameCount F r)) :
    Rejoins F (c :: r) ↔ (c = ch '/' ∧ RejoinsAt F r) ∨ Rejoins F r := by
  constructor
  · rintro ⟨t, u, hs, hcase⟩
    rcases t with - | ⟨d, t⟩
    · obtain ⟨rfl, rfl⟩ := List.cons.inj hs
      exact .inl ⟨rfl, hcase.imp_left fun h => ⟨h.1, h.2.2⟩⟩
    · obtain ⟨rfl, rfl⟩ := List.cons.inj hs
      exact .inr ⟨t, u, rfl, hcase.imp_left fun h =>
        ⟨h.1, fun hafter => h.2.1 (hafter.append_left [c]), h.2.2⟩⟩
  · rintro (⟨rfl, hat⟩ | ⟨t, u, rfl, hcase⟩)
    · refine ⟨[], r, rfl, hat.imp_left fun h => ⟨h.1, ?_, h.2⟩⟩
      rintro ⟨t, w, ht, -⟩
      cases t <;> cases ht
    · refine ⟨c :: t, u, rfl, hcase.imp_left fun h => ⟨h.1, fun hafter => h.2.1 ?_, h.2.2⟩⟩
      refine (afterName_cons ?_).mp hafter
      rintro ⟨rfl, hw⟩
      refine hno ⟨rfl, ?_⟩
      rw [nameCount, names_more not_pathChar_slash hw (by omega : 0 < nameCount F u)]
      show 2 ≤ _ + 1
      omega

/-- **Nothing is left to replace** exactly where the text does not rejoin. -/
theorem settled_pathSub_iff (P : List PyStr) (s : PyStr) :
    Settled F (pathSub F P s).2 ↔ ¬ Rejoins F s := by
  induction s using scan_induct (F := F) generalizing P with
  | nil =>
      refine iff_of_true trivial ?_
      rintro ⟨t, u, ht, -⟩
      cases t <;> cases ht
  | path r hr ih =>
      rw [pathSub_path hr, settled_append (slash_not_mem_path P _), ih, rejoins_path hr]
  | step c r hno ih =>
      rw [pathSub_step hno, Settled, ih, rejoins_step hno, not_or]
      refine and_congr_left fun _ => ?_
      by_cases hc : c = ch '/'
      · have hlt : nameCount F r < 2 := by
          by_contra hge
          exact hno ⟨hc, by omega⟩
        have hiff := nameCount_pathSub_iff hlt P
        simp only [hc, true_imp_iff, true_and, ← hiff, not_le]
      · simp [hc]

end Texts

end ReSchema
