/-
ReSchema/Py/RoundTrip.lean

`json.loads` reads back what `json.dumps` writes.

Two things are lost on the way, both in the text itself.  `json.dumps` writes
an astral code point and the two surrogates of its pair alike, so what comes
back is `Json.joined`, the value with such pairs joined; and keys that become
equal in this way meet in one dictionary entry.  The central statement is
therefore about the scanner before repeated keys are resolved:

    loadsPairs (dumps st v) = some v.joined          (`loadsPairs_dumps`)

It holds in every layout (`Style.Blank`) for values inside the interpreter's
limits (`Json.Fits`), and makes `dumps` injective up to `joined`
(`dumps_eq_iff`).  On values without surrogates and repeated keys
(`Json.Clean`) nothing is lost and `loads` inverts `dumps` (`loads_dumps`).
-/
import ReSchema.Py.Loads

namespace Py

variable {F : Type} [Runtime F]

/-! ### Assumptions on the interpreter -/

/-- What may follow a value inside a text. -/
def Delim (rest : PyStr) : Prop :=
  ∀ c r, rest = c :: r → isWs c ∨ c = ch ',' ∨ c = ch ']' ∨ c = ch '\x7d'

/-- Only printable ASCII. -/
def Printable (s : PyStr) : Prop := ∀ c ∈ s, 0x20 ≤ c.val ∧ c.val < 0x7f

/-- The interpreter reads its own floats: `float(repr(x)) == x`, in the words of the JSON
encoder.  The limit on nesting is CPython's default or larger, and the `repr` of a float is a
short text. -/
class LawfulRuntime (F : Type) [Runtime F] : Prop where
  scan_floatJson : ∀ (x : F) (rest : PyStr), Delim rest →
    scanScalar (Runtime.floatJson x ++ rest) = some (.float x, rest)
  printable_floatJson : ∀ x : F, Printable (Runtime.floatJson x)
  head_floatJson : ∀ x : F, ∃ c r, Runtime.floatJson x = c :: r ∧
    (isDigit c ∨ c = ch '-' ∨ c = ch 'N' ∨ c = ch 'I')
  maxDepth_le : 100 ≤ Runtime.maxDepth F
  length_floatRepr : ∀ x : F, (Runtime.floatRepr x).length ≤ 100

/-! ### Strings -/

/-- The code points that `escapeChar` writes without a numeric escape. -/
def HasShort (c : CodePoint) : Prop :=
  c = ch '"' ∨ c = ch '\\' ∨ c = ch '\n' ∨ c = ch '\r' ∨ c = ch '\t' ∨ c.val = 0x0c ∨
    c.val = 0x08 ∨ (0x20 ≤ c.val ∧ c.val ≤ 0x7e)

instance : DecidablePred HasShort := fun c => by
  unfold HasShort; infer_instance

/-- What the scanner makes of one escaped code point. -/
def itemsOf (c : CodePoint) : List (Bool × CodePoint) :=
  if HasShort c then [(false, c)]
  else if c.val < 0x10000 then [(true, c)]
  else [(true, codePoint (0xd800 + (c.val - 0x10000) / 0x400)),
    (true, codePoint (0xdc00 + (c.val - 0x10000) % 0x400))]

theorem hex4_hexFixed {n : ℕ} (h : n < 0x10000) :
    ∃ a b c d, hexFixed 4 n = [a, b, c, d] ∧ hex4 a b c d = some (codePoint n) := by
  refine ⟨hexDigit (n / 16 / 16 / 16 % 16), hexDigit (n / 16 / 16 % 16), hexDigit (n / 16 % 16),
    hexDigit (n % 16), by simp [hexFixed], ?_⟩
  have hn : ((n / 16 / 16 / 16 % 16 * 16 + n / 16 / 16 % 16) * 16 + n / 16 % 16) * 16 + n % 16
      = n := by omega
  simp only [hex4, hexVal_hexDigit _ (Nat.mod_lt _ (by decide : 0 < 16)), hn]

theorem scanItems_uEscape {n : ℕ} (h : n < 0x10000) (s : PyStr) :
    scanItems (uEscape n ++ s) =
      (scanItems s).map fun p => ((true, codePoint n) :: p.1, p.2) := by
  obtain ⟨a, b, c, d, hd, hv⟩ := hex4_hexFixed h
  have hu : uEscape n = ch '\\' :: ch 'u' :: [a, b, c, d] := by
    rw [uEscape, hd]
    rfl
  rw [hu]
  simp only [List.cons_append, List.nil_append]
  rw [scanItems.eq_def]
  simp [hv]

theorem scanItems_simple {e u : CodePoint} (he : e ≠ ch 'u') (hu : simpleEscape e = some u)
    (s : PyStr) :
    scanItems (ch '\\' :: e :: s) = (scanItems s).map fun p => ((false, u) :: p.1, p.2) := by
  rw [scanItems.eq_def]
  simp [he, hu]

theorem scanItems_raw {c : CodePoint} (h1 : c ≠ ch '"') (h2 : c ≠ ch '\\')
    (h3 : 0x20 ≤ c.val) (s : PyStr) :
    scanItems (c :: s) = (scanItems s).map fun p => ((false, c) :: p.1, p.2) := by
  rw [scanItems.eq_def]
  simp [h1, h2, Nat.not_lt.mpr h3]

theorem scanItems_escapeChar (c : CodePoint) (s : PyStr) :
    scanItems (escapeChar c ++ s) =
      (scanItems s).map fun p => (itemsOf c ++ p.1, p.2) := by
  -- five signs with a short escape, two control characters, then plain, `\u` once or twice
  unfold escapeChar
  split_ifs with h1 h2 h3 h4 h5 h6 h7 h8 h9
  · subst h1
    exact scanItems_simple (by decide) (by decide) s
  · subst h2
    exact scanItems_simple (by decide) (by decide) s
  · subst h3
    exact scanItems_simple (by decide) (by decide) s
  · subst h4
    exact scanItems_simple (by decide) (by decide) s
  · subst h5
    exact scanItems_simple (by decide) (by decide) s
  · obtain rfl : c = 0x0c := Fin.ext h6
    exact scanItems_simple (by decide) (by decide) s
  · obtain rfl : c = 0x08 := Fin.ext h7
    exact scanItems_simple (by decide) (by decide) s
  · have hs : HasShort c := by unfold HasShort; tauto
    simp only [itemsOf, hs, if_true]
    exact scanItems_raw h1 h2 h8.1 s
  · have hs : ¬HasShort c := by unfold HasShort; tauto
    simp only [itemsOf, hs, h9, if_true, if_false]
    rw [scanItems_uEscape h9, codePoint_val]
    rfl
  · have hs : ¬HasShort c := by unfold HasShort; tauto
    have hc := c.isLt
    simp only [itemsOf, hs, h9, if_false, List.append_assoc]
    rw [scanItems_uEscape (by omega), scanItems_uEscape (by omega), Option.map_map]
    rfl

theorem scanItems_escape (s : PyStr) (rest : PyStr) :
    scanItems (escape s ++ ch '"' :: rest) = some (s.flatMap itemsOf, rest) := by
  induction s with
  | nil =>
      rw [scanItems.eq_def]
      simp [escape]
  | cons c s ih =>
      have he : escape (c :: s) = escapeChar c ++ escape s := List.flatMap_cons
      rw [he, List.append_assoc, scanItems_escapeChar, ih, List.flatMap_cons]
      rfl

/-- A code point that is no high surrogate is joined with nothing behind it. -/
theorem joinItems_itemsOf {c : CodePoint} (h : isHigh c = false)
    (r : List (Bool × CodePoint)) : joinItems (itemsOf c ++ r) = c :: joinItems r := by
  have single : ∀ b, joinItems ((b, c) :: r) = c :: joinItems r := by
    intro b
    rcases r with - | ⟨d, r⟩
    · rfl
    · simp [joinItems, h]
  unfold itemsOf
  split_ifs with hs hb
  · exact single false
  · exact single true
  · -- a code point above the first plane: the scanner joins the pair that it was written as
    have hc := c.isLt
    have h1 : (codePoint (0xd800 + (c.val - 0x10000) / 0x400)).val
        = 0xd800 + (c.val - 0x10000) / 0x400 := by
      rw [codePoint, dif_pos (by omega)]
    have h2 : (codePoint (0xdc00 + (c.val - 0x10000) % 0x400)).val
        = 0xdc00 + (c.val - 0x10000) % 0x400 := by
      rw [codePoint, dif_pos (by omega)]
    have hhi : isHigh (codePoint (0xd800 + (c.val - 0x10000) / 0x400)) = true := by
      simp only [isHigh, h1, Bool.and_eq_true, decide_eq_true_iff]
      omega
    have hlo : isLow (codePoint (0xdc00 + (c.val - 0x10000) % 0x400)) = true := by
      simp only [isLow, h2, Bool.and_eq_true, decide_eq_true_iff]
      omega
    have hj : joinPair (codePoint (0xd800 + (c.val - 0x10000) / 0x400))
        (codePoint (0xdc00 + (c.val - 0x10000) % 0x400)) = c := by
      have hn : 0x10000 + (0xd800 + (c.val - 0x10000) / 0x400 - 0xd800) * 0x400 +
          (0xdc00 + (c.val - 0x10000) % 0x400 - 0xdc00) = c.val := by omega
      rw [joinPair, h1, h2, hn, codePoint_val]
    simp [joinItems, hhi, hlo, hj]

theorem itemsOf_high {c : CodePoint} (h : isHigh c = true) : itemsOf c = [(true, c)] := by
  simp only [isHigh, Bool.and_eq_true, decide_eq_true_iff] at h
  have hs : ¬HasShort c := by
    rintro (rfl | rfl | rfl | rfl | rfl | hc | hc | hc) <;> revert h
    all_goals first | decide | omega
  have hb : c.val < 0x10000 := by omega
  rw [itemsOf, if_neg hs, if_pos hb]

theorem itemsOf_low {c : CodePoint} (h : isLow c = true) : itemsOf c = [(true, c)] := by
  simp only [isLow, Bool.and_eq_true, decide_eq_true_iff] at h
  have hs : ¬HasShort c := by
    rintro (rfl | rfl | rfl | rfl | rfl | hc | hc | hc) <;> revert h
    all_goals first | decide | omega
  have hb : c.val < 0x10000 := by omega
  rw [itemsOf, if_neg hs, if_pos hb]

/-- The scanner's pairing on escapes is `joinPairs` on the string. -/
theorem joinItems_flatMap (s : PyStr) : joinItems (s.flatMap itemsOf) = joinPairs s := by
  induction s using joinPairs.induct with
  | case1 => rfl
  | case2 c =>
      rcases hc : isHigh c with - | -
      · have h := joinItems_itemsOf hc []
        simpa [joinItems, joinPairs] using h
      · simp [itemsOf_high hc, joinItems, joinPairs]
  | case3 c d r hcd ih =>
      have hcd' : isHigh c = true ∧ isLow d = true := by simpa using hcd
      simp only [List.flatMap_cons, itemsOf_high hcd'.1, itemsOf_low hcd'.2]
      simp [joinItems, joinPairs, hcd'.1, hcd'.2, ih]
  | case4 c d r hcd ih =>
      rw [List.flatMap_cons, joinPairs, if_neg hcd, ← ih]
      rcases hc : isHigh c with - | -
      · exact joinItems_itemsOf hc _
      · have hd : isLow d = false := by
          rcases hd : isLow d with - | -
          · rfl
          · simp [hc, hd] at hcd
        rw [itemsOf_high hc, List.flatMap_cons]
        -- whatever `d` is written as, its first item is no low surrogate
        have hhead : ∃ b e q, itemsOf d = (b, e) :: q ∧ isLow e = false := by
          unfold itemsOf
          split_ifs with hs hb
          · exact ⟨_, _, _, rfl, hd⟩
          · exact ⟨_, _, _, rfl, hd⟩
          · refine ⟨_, _, _, rfl, ?_⟩
            have hdl := d.isLt
            have hv : (codePoint (0xd800 + (d.val - 0x10000) / 0x400)).val
                = 0xd800 + (d.val - 0x10000) / 0x400 := by
              rw [codePoint, dif_pos (by omega)]
            simp only [isLow, hv, Bool.and_eq_false_iff, decide_eq_false_iff_not]
            omega
        obtain ⟨b, e, q, hq, he⟩ := hhead
        simp [hq, joinItems, he]

/-- **Strings.**  A quoted string is read back with its surrogate pairs joined. -/
theorem scanString_escape (s rest : PyStr) :
    scanString (escape s ++ ch '"' :: rest) = some (joinPairs s, rest) := by
  rw [scanString, scanItems_escape, Option.map_some, joinItems_flatMap]

/-! ### Numbers -/

theorem Delim.head {rest : PyStr} (h : Delim rest) {c : CodePoint} {r : PyStr}
    (he : rest = c :: r) :
    isDigit c = false ∧ c ≠ ch '.' ∧ c ≠ ch 'e' ∧ c ≠ ch 'E' := by
  have hws : isWs c → c = ch ' ' ∨ c = ch '\t' ∨ c = ch '\n' ∨ c = ch '\r' := by
    simp only [isWs, Bool.or_eq_true, beq_iff_eq]
    tauto
  rcases h c r he with hc | rfl | rfl | rfl
  · rcases hws hc with rfl | rfl | rfl | rfl <;> decide
  all_goals decide

theorem digitsVal_natText (n : ℕ) : digitsVal (natText n) = n := by
  have h := Nat.ofDigitChars_ten_toDigits (n := n)
  rw [Nat.ofDigitChars_eq_foldl] at h
  rw [digitsVal, natText, List.foldl_map]
  exact h

theorem natText_inj {m n : ℕ} : natText m = natText n ↔ m = n := by
  refine ⟨fun h => ?_, fun h => h ▸ rfl⟩
  have hd := congrArg digitsVal h
  rwa [digitsVal_natText, digitsVal_natText] at hd

/-- A positive numeral does not start with a zero. -/
theorem toDigits_head {n : ℕ} (h : 0 < n) :
    ∃ c r, Nat.toDigits 10 n = c :: r ∧ c ≠ '0' := by
  induction n using Nat.strong_induction_on with
  | _ n ih =>
      by_cases hn : n < 10
      · refine ⟨n.digitChar, [], Nat.toDigits_of_lt_base hn, ?_⟩
        interval_cases n <;> decide
      · obtain ⟨c, r, hc, h0⟩ := ih (n / 10) (by omega) (by omega)
        exact ⟨c, r ++ [(n % 10).digitChar], by
          rw [Nat.toDigits_of_base_le (by decide) (by omega), hc, List.cons_append], h0⟩

theorem natText_head {n : ℕ} : ∃ c r, natText n = c :: r ∧ isDigit c = true ∧
    (c = ch '0' → r = []) := by
  rcases Nat.eq_zero_or_pos n with rfl | hn
  · exact ⟨ch '0', [], rfl, by decide, fun _ => rfl⟩
  · obtain ⟨c, r, hc, h0⟩ := toDigits_head hn
    have ht : natText n = ch c :: r.map ch := by rw [natText, hc, List.map_cons]
    refine ⟨ch c, r.map ch, ht, isDigit_of_mem_natText (n := n) (by simp [ht]), fun h => ?_⟩
    exact absurd (ch_inj.mp h) h0

theorem takeWhile_digits {ds rest : PyStr} (hds : ∀ c ∈ ds, isDigit c = true)
    (hr : Delim rest) : (ds ++ rest).takeWhile isDigit = ds ∧
      (ds ++ rest).dropWhile isDigit = rest := by
  induction ds with
  | nil =>
      rcases rest with - | ⟨c, r⟩
      · exact ⟨rfl, rfl⟩
      · simp [(hr.head rfl).1]
  | cons d ds ih =>
      obtain ⟨hd, hds'⟩ := List.forall_mem_cons.mp hds
      simpa [hd] using ih hds'

theorem scanInt_natText (n : ℕ) {rest : PyStr} (hr : Delim rest) :
    scanInt (natText n ++ rest) = some (natText n, rest) := by
  obtain ⟨c, r, hn, hc, h0⟩ := natText_head (n := n)
  have hds : ∀ d ∈ r, isDigit d = true := fun d hd =>
    isDigit_of_mem_natText (n := n) (by rw [hn]; exact List.mem_cons_of_mem _ hd)
  obtain ⟨ht, hd⟩ := takeWhile_digits hds hr
  rw [hn, List.cons_append, scanInt]
  by_cases hz : c = ch '0'
  · simp [hz, h0 hz]
  · simp [hz, hc, ht, hd]

theorem scanFrac_delim {rest : PyStr} (hr : Delim rest) : scanFrac rest = ([], rest) := by
  rcases rest with - | ⟨c, - | ⟨d, r⟩⟩
  · rfl
  · rfl
  · simp [scanFrac, (hr.head rfl).2.1]

theorem scanExp_delim {rest : PyStr} (hr : Delim rest) : scanExp rest = ([], rest) := by
  rcases rest with - | ⟨c, - | ⟨d, r⟩⟩
  · rfl
  · rfl
  · obtain ⟨-, -, he, hE⟩ := hr.head rfl
    simp [scanExp, he, hE]

theorem scanNumber_int {i : ℤ} (hi : i.natAbs < 10 ^ maxStrDigits) {rest : PyStr}
    (hr : Delim rest) : scanNumber (F := F) (intText i ++ rest) = some (.int i, rest) := by
  have hlen : (natText i.natAbs).length ≤ maxStrDigits := by
    rw [natText, List.length_map]
    exact (Nat.length_toDigits_le_iff (by decide) (by decide)).mpr hi
  have hsign : scanSign (intText i ++ rest)
      = ((if i < 0 then [ch '-'] else []), natText i.natAbs ++ rest) := by
    unfold intText
    split_ifs with hneg
    · simp [scanSign]
    · obtain ⟨c, r, hn, hc, -⟩ := natText_head (n := i.natAbs)
      have hne : c ≠ ch '-' := by rintro rfl; revert hc; decide
      simp [hn, scanSign, hne]
  unfold scanNumber
  rw [hsign]
  simp only [scanInt_natText _ hr, scanFrac_delim hr, scanExp_delim hr, and_self, if_true, hlen,
    digitsVal_natText]
  by_cases hneg : i < 0
  · have hi' : -(i.natAbs : ℤ) = i := by omega
    simp only [if_pos hneg, reduceCtorEq, if_false, hi']
  · have hi' : (i.natAbs : ℤ) = i := by omega
    simp only [if_neg hneg, if_true, hi']

/-- No constant starts like a number. -/
theorem constants_none {s : PyStr}
    (h : ∀ p ∈ (constants : List (PyStr × Json F)), p.1.isPrefixOf s = false) :
    (constants.findSome? fun p : PyStr × Json F =>
      (stripPrefix p.1 s).map fun r => (p.2, r)) = none := by
  rw [List.findSome?_eq_none_iff]
  intro p hp
  simp [stripPrefix, h p hp]

theorem not_isPrefixOf_of_head {w : String} {a : Char} {l : List Char} (hw : w.toList = a :: l)
    {c : CodePoint} (h : ch a ≠ c) (s : PyStr) : (py w).isPrefixOf (c :: s) = false := by
  have hb : (ch a == c) = false := by simpa using h
  rw [py, hw, List.map_cons, List.isPrefixOf_cons_cons, hb, Bool.false_and]

theorem scanScalar_int {i : ℤ} (hi : i.natAbs < 10 ^ maxStrDigits) {rest : PyStr}
    (hr : Delim rest) : scanScalar (F := F) (intText i ++ rest) = some (.int i, rest) := by
  obtain ⟨c, r, hn, hc, -⟩ := natText_head (n := i.natAbs)
  have hne : ∀ d : Char, d.isDigit = false → ch d ≠ c := by
    rintro d hd rfl
    rw [isDigit_ch, hd] at hc
    exact Bool.false_ne_true hc
  have hpre : ∀ p ∈ (constants : List (PyStr × Json F)),
      p.1.isPrefixOf (intText i ++ rest) = false := by
    simp only [constants, List.forall_mem_cons, List.not_mem_nil, false_implies, implies_true,
      and_true]
    unfold intText
    split_ifs with hneg
    · have hdash : ∀ a : Char, a ≠ '-' → ch a ≠ ch '-' := fun a h => by simpa using h
      have hinf : (py "-Infinity").isPrefixOf (ch '-' :: (c :: r ++ rest)) = false := by
        have hI : (ch 'I' == c) = false := by simpa using hne 'I' rfl
        rw [py, show "-Infinity".toList = '-' :: 'I' :: "nfinity".toList from rfl, List.map_cons,
          List.map_cons, List.isPrefixOf_cons_cons, List.cons_append, List.isPrefixOf_cons_cons, hI,
          Bool.false_and, Bool.and_false]
      rw [hn]
      exact ⟨not_isPrefixOf_of_head rfl (hdash 'n' (by decide)) _,
        not_isPrefixOf_of_head rfl (hdash 't' (by decide)) _,
        not_isPrefixOf_of_head rfl (hdash 'f' (by decide)) _,
        not_isPrefixOf_of_head rfl (hdash 'N' (by decide)) _,
        not_isPrefixOf_of_head rfl (hdash 'I' (by decide)) _, hinf⟩
    · rw [hn]
      exact ⟨not_isPrefixOf_of_head rfl (hne 'n' rfl) _, not_isPrefixOf_of_head rfl (hne 't' rfl) _,
        not_isPrefixOf_of_head rfl (hne 'f' rfl) _, not_isPrefixOf_of_head rfl (hne 'N' rfl) _,
        not_isPrefixOf_of_head rfl (hne 'I' rfl) _, not_isPrefixOf_of_head rfl (hne '-' rfl) _⟩
  rw [scanScalar, constants_none hpre]
  exact scanNumber_int hi hr

/-! ### The text is printable -/

theorem isAscii_of_isWs {s : PyStr} (h : ∀ c ∈ s, isWs c) : IsAscii s := by
  intro c hc
  have hw := h c hc
  simp only [isWs, Bool.or_eq_true, beq_iff_eq] at hw
  rcases hw with ((rfl | rfl) | rfl) | rfl <;> decide

theorem Printable.isAscii {s : PyStr} (h : Printable s) : IsAscii s := fun c hc => by
  have := h c hc
  omega

theorem printable_append {s t : PyStr} : Printable (s ++ t) ↔ Printable s ∧ Printable t :=
  List.forall_mem_append

theorem printable_cons {c : CodePoint} {s : PyStr} :
    Printable (c :: s) ↔ (0x20 ≤ c.val ∧ c.val < 0x7f) ∧ Printable s :=
  List.forall_mem_cons

theorem printable_ch {c : Char} (h : 0x20 ≤ c.toNat ∧ c.toNat < 0x7f) : Printable [ch c] :=
  List.forall_mem_singleton.mpr h

/-- A literal of the source is printable if its characters are. -/
theorem printable_py {s : String}
    (h : (s.toList.all fun c => 0x20 ≤ c.toNat && c.toNat < 0x7f) = true) : Printable (py s) := by
  intro c hc
  obtain ⟨d, hd, rfl⟩ := List.mem_map.mp hc
  simpa using List.all_eq_true.mp h d hd

theorem printable_natText (n : ℕ) : Printable (natText n) := by
  intro c hc
  have hd := isDigit_of_mem_natText hc
  simp only [isDigit, Bool.and_eq_true, decide_eq_true_iff] at hd
  omega

theorem printable_intText (i : ℤ) : Printable (intText i) := by
  unfold intText
  split_ifs
  · exact printable_cons.mpr ⟨by decide, printable_natText _⟩
  · exact printable_natText _

theorem printable_hex (bs : Bytes) : Printable (hex bs) := by
  have hdig : ∀ m, m < 16 → 0x20 ≤ (hexDigit m).val ∧ (hexDigit m).val < 0x7f := by decide
  induction bs with
  | nil => exact fun c hc => absurd hc List.not_mem_nil
  | cons b bs ih =>
      have hb : b.toNat < 256 := b.toNat_lt
      exact printable_cons.mpr ⟨hdig _ (by omega), printable_cons.mpr ⟨hdig _ (by omega), ih⟩⟩

theorem printable_hexFixed (w n : ℕ) : Printable (hexFixed w n) := by
  have hdig : ∀ m, m < 16 → 0x20 ≤ (hexDigit m).val ∧ (hexDigit m).val < 0x7f := by decide
  induction w generalizing n with
  | zero => exact fun c hc => absurd hc List.not_mem_nil
  | succ w ih =>
      exact printable_append.mpr ⟨ih _, List.forall_mem_singleton.mpr
        (hdig _ (Nat.mod_lt _ (by decide)))⟩

theorem printable_uEscape (n : ℕ) : Printable (uEscape n) :=
  printable_append.mpr ⟨printable_py (by decide), printable_hexFixed 4 n⟩

theorem printable_escapeChar (c : CodePoint) : Printable (escapeChar c) := by
  unfold escapeChar
  split_ifs with h1 h2 h3 h4 h5 h6 h7 h8 h9
  rotate_left 7
  · exact List.forall_mem_singleton.mpr (by omega)
  · exact printable_uEscape _
  · exact printable_append.mpr ⟨printable_uEscape _, printable_uEscape _⟩
  all_goals exact printable_py (by decide)

theorem printable_quote (s : PyStr) : Printable (quote s) := by
  have he : Printable (escape s) := by
    intro c hc
    obtain ⟨d, -, hd⟩ := List.mem_flatMap.mp hc
    exact printable_escapeChar d c hd
  exact printable_cons.mpr ⟨by decide, printable_append.mpr ⟨he, printable_ch (by decide)⟩⟩

/-! ### Limits and joined values -/

mutual
/-- The value nests at most `n` deep and its integers are short enough to be read. -/
def Json.Fits : ℕ → Json F → Prop
  | _, .int i => i.natAbs < 10 ^ maxStrDigits
  | n, .arr xs => 0 < n ∧ FitsList (n - 1) xs
  | n, .obj d => 0 < n ∧ FitsDict (n - 1) d
  | _, _ => True
def FitsList : ℕ → List (Json F) → Prop
  | _, [] => True
  | n, x :: xs => x.Fits n ∧ FitsList n xs
def FitsDict : ℕ → List (PyStr × Json F) → Prop
  | _, [] => True
  | n, (_, v) :: d => v.Fits n ∧ FitsDict n d
end

omit [Runtime F] in
theorem fitsList_iff {n : ℕ} {xs : List (Json F)} : FitsList n xs ↔ ∀ x ∈ xs, x.Fits n := by
  induction xs with
  | nil => simp [FitsList]
  | cons x xs ih => simp [FitsList, ih]

omit [Runtime F] in
theorem fitsDict_iff {n : ℕ} {d : Dict (Json F)} : FitsDict n d ↔ ∀ e ∈ d, e.2.Fits n := by
  induction d with
  | nil => simp [FitsDict]
  | cons e d ih => simp [FitsDict, ih]

mutual
/-- The value with the surrogate pairs of all its strings joined. -/
def Json.joined : Json F → Json F
  | .str s => .str (joinPairs s)
  | .arr xs => .arr (joinedList xs)
  | .obj d => .obj (joinedDict d)
  | v => v
def joinedList : List (Json F) → List (Json F)
  | [] => []
  | x :: xs => x.joined :: joinedList xs
def joinedDict : List (PyStr × Json F) → List (PyStr × Json F)
  | [] => []
  | (k, v) :: d => (joinPairs k, v.joined) :: joinedDict d
end

/-! ### Values -/

/-- The layout adds nothing but white space. -/
def Style.Blank (st : Style) : Prop :=
  (∀ c ∈ st.itemPad, isWs c) ∧ ∀ c ∈ st.keyPad, isWs c

theorem plain_blank : plain.Blank := by
  simp [Style.Blank, plain, py, isWs]
theorem compact_blank : compact.Blank := by
  simp [Style.Blank, compact]
theorem indent2_blank : indent2.Blank := by
  simp [Style.Blank, indent2, py, isWs]

theorem isWs_newline (st : Style) (lvl : ℕ) : ∀ c ∈ st.newline lvl, isWs c := by
  intro c hc
  unfold Style.newline at hc
  rcases hi : st.indent with - | n
  · simp [hi] at hc
  · rw [hi] at hc
    rcases List.mem_cons.mp hc with rfl | hc
    · decide
    · rw [List.eq_of_mem_replicate hc]
      decide

theorem skipWs_append {ws : PyStr} (h : ∀ c ∈ ws, isWs c) (s : PyStr) :
    skipWs (ws ++ s) = skipWs s := by
  rw [skipWs, List.dropWhile_append_of_pos h]
  rfl

theorem skipWs_cons {c : CodePoint} (h : isWs c = false) (s : PyStr) :
    skipWs (c :: s) = c :: s := by
  simp [skipWs, h]

theorem length_skipWs_le (s : PyStr) : (skipWs s).length ≤ s.length :=
  (List.dropWhile_sublist _).length_le

theorem delim_renderElems (st : Style) (lvl : ℕ) (xs : List (Json F)) {ws : PyStr}
    (hws : ∀ c ∈ ws, isWs c) (rest : PyStr) :
    Delim (renderElems st lvl xs ++ (ws ++ ch ']' :: rest)) := by
  intro c r h
  rcases xs with - | ⟨x, xs⟩
  · rcases ws with - | ⟨w, ws⟩
    · simp only [renderElems, List.nil_append, List.cons.injEq] at h
      exact .inr (.inr (.inl h.1.symm))
    · simp only [renderElems, List.nil_append, List.cons_append, List.cons.injEq] at h
      exact .inl (h.1 ▸ hws w (List.mem_cons_self))
  · simp only [renderElems, List.cons_append, List.cons.injEq] at h
    exact .inr (.inl h.1.symm)

theorem delim_renderMembers (st : Style) (lvl : ℕ) (d : Dict (Json F)) {ws : PyStr}
    (hws : ∀ c ∈ ws, isWs c) (rest : PyStr) :
    Delim (renderMembers st lvl d ++ (ws ++ ch '\x7d' :: rest)) := by
  intro c r h
  rcases d with - | ⟨⟨k, v⟩, d⟩
  · rcases ws with - | ⟨w, ws⟩
    · simp only [renderMembers, List.nil_append, List.cons.injEq] at h
      exact .inr (.inr (.inr h.1.symm))
    · simp only [renderMembers, List.nil_append, List.cons_append, List.cons.injEq] at h
      exact .inl (h.1 ▸ hws w (List.mem_cons_self))
  · simp only [renderMembers, List.cons_append, List.cons.injEq] at h
    exact .inr (.inl h.1.symm)

theorem value_eq_scanScalar (fuel depth : ℕ) {c : CodePoint} (h1 : c ≠ ch '"')
    (h2 : c ≠ ch '\x7b') (h3 : c ≠ ch '[') (r : PyStr) :
    value (F := F) (fuel + 1) depth (c :: r) = scanScalar (c :: r) := by
  rw [value.eq_def]
  simp only [h1, h2, h3, if_false]

theorem value_quote (fuel depth : ℕ) (r : PyStr) :
    value (F := F) (fuel + 1) depth (ch '"' :: r) =
      (scanString r).map fun p => (.str p.1, p.2) := by
  rw [value.eq_def]
  simp only [if_true]

theorem value_bracket (fuel depth : ℕ) {r r1 : PyStr} {e : CodePoint} (h : skipWs r = e :: r1) :
    value (F := F) (fuel + 1) (depth + 1) (ch '[' :: r) =
      if e = ch ']' then some (.arr [], r1)
      else (elems fuel depth (e :: r1)).map fun p => (.arr p.1, p.2) := by
  rw [value.eq_def]
  simp [h]

theorem value_brace (fuel depth : ℕ) {r r1 : PyStr} {e : CodePoint} (h : skipWs r = e :: r1) :
    value (F := F) (fuel + 1) (depth + 1) (ch '\x7b' :: r) =
      if e = ch '\x7d' then some (.obj [], r1)
      else (members fuel depth (e :: r1)).map fun p => (.obj p.1, p.2) := by
  rw [value.eq_def]
  simp [h]

theorem stripPrefix_append (p s : PyStr) : stripPrefix p (p ++ s) = some s := by
  have h : p.isPrefixOf (p ++ s) = true := by simp
  simp [stripPrefix, h]

section LawfulRuntime

variable [LawfulRuntime F]

/-- The first code point of a value: no white space and no closing bracket. -/
theorem render_head (st : Style) (lvl : ℕ) (v : Json F) :
    ∃ c r, render st lvl v = c :: r ∧ isWs c = false ∧ c ≠ ch ']' := by
  have ofDigit : ∀ c : CodePoint, isDigit c = true → isWs c = false ∧ c ≠ ch ']' := by
    intro c hc
    refine ⟨?_, by rintro rfl; revert hc; decide⟩
    rw [Bool.eq_false_iff]
    intro hw
    simp only [isWs, Bool.or_eq_true, beq_iff_eq] at hw
    rcases hw with ((rfl | rfl) | rfl) | rfl <;> revert hc <;> decide
  cases v with
  | null => exact ⟨ch 'n', py "ull", rfl, by decide, by decide⟩
  | bool b =>
      cases b
      · exact ⟨ch 'f', py "alse", rfl, by decide, by decide⟩
      · exact ⟨ch 't', py "rue", rfl, by decide, by decide⟩
  | int i =>
      obtain ⟨c, r, hn, hc, -⟩ := natText_head (n := i.natAbs)
      by_cases hneg : i < 0
      · exact ⟨ch '-', natText i.natAbs, by simp [render, intText, hneg], by decide, by decide⟩
      · exact ⟨c, r, by simp [render, intText, hneg, hn], ofDigit c hc⟩
  | float x =>
      -- what is known of a float: it starts with a digit, a sign, `N` or `I`
      obtain ⟨c, r, hx, hc⟩ := LawfulRuntime.head_floatJson x
      refine ⟨c, r, by simpa [render] using hx, ?_⟩
      rcases hc with hc | rfl | rfl | rfl
      · exact ofDigit c hc
      all_goals decide
  | str s => exact ⟨ch '"', escape s ++ [ch '"'], rfl, by decide, by decide⟩
  | arr xs =>
      rcases xs with - | ⟨x, xs⟩
      · exact ⟨ch '[', [ch ']'], rfl, by decide, by decide⟩
      · exact ⟨ch '[', _, rfl, by decide, by decide⟩
  | obj d =>
      rcases d with - | ⟨⟨k, v⟩, d⟩
      · exact ⟨ch '\x7b', [ch '\x7d'], rfl, by decide, by decide⟩
      · exact ⟨ch '\x7b', _, rfl, by decide, by decide⟩

theorem skipWs_render (st : Style) (lvl : ℕ) (v : Json F) (s : PyStr) :
    skipWs (render st lvl v ++ s) = render st lvl v ++ s := by
  obtain ⟨c, r, hc, hw, -⟩ := render_head st lvl v
  rw [hc, List.cons_append, skipWs_cons hw]

/-- `v` is read back at any nesting and in front of anything that may follow a value. -/
def ReadsBack (st : Style) (v : Json F) : Prop :=
  ∀ lvl rest fuel depth, v.Fits depth → Delim rest →
    2 * (render st lvl v ++ rest).length + 1 ≤ fuel →
    value fuel depth (render st lvl v ++ rest) = some (v.joined, rest)

/-- The items of an array, from the first one up to the bracket. -/
theorem elems_render {st : Style} (hst : st.Blank) (lvl : ℕ) {ws : PyStr}
    (hws : ∀ c ∈ ws, isWs c) (rest : PyStr) (xs : List (Json F)) :
    ∀ (x : Json F) (fuel depth : ℕ), (∀ y ∈ x :: xs, ReadsBack st y) →
      (∀ y ∈ x :: xs, y.Fits depth) →
      2 * (render st lvl x ++ (renderElems st lvl xs ++ (ws ++ ch ']' :: rest))).length + 2 ≤ fuel →
      elems fuel depth (render st lvl x ++ (renderElems st lvl xs ++ (ws ++ ch ']' :: rest)))
        = some (joinedList (x :: xs), rest) := by
  induction xs with
  | nil =>
      intro x fuel depth hread hfit hfuel
      obtain ⟨fuel, rfl⟩ : ∃ f, fuel = f + 1 := ⟨fuel - 1, by omega⟩
      have hx := hread x List.mem_cons_self lvl _ fuel depth (hfit x List.mem_cons_self)
        (delim_renderElems st lvl [] hws rest) (by omega)
      rw [elems, hx]
      simp only [renderElems, List.nil_append, skipWs_append hws]
      rw [skipWs_cons (by decide)]
      simp [joinedList]
  | cons y ys ih =>
      intro x fuel depth hread hfit hfuel
      obtain ⟨fuel, rfl⟩ : ∃ f, fuel = f + 1 := ⟨fuel - 1, by omega⟩
      have hx := hread x List.mem_cons_self lvl _ fuel depth (hfit x List.mem_cons_self)
        (delim_renderElems st lvl (y :: ys) hws rest) (by omega)
      have hpad : ∀ s, skipWs (st.itemPad ++ (st.newline lvl ++ (render st lvl y ++ s)))
          = render st lvl y ++ s := fun s => by
        rw [skipWs_append hst.1, skipWs_append (isWs_newline st lvl), skipWs_render]
      -- the comma and the layout behind it are dropped, so the rest starts at the next item
      have hys := ih y fuel depth (fun z hz => hread z (List.mem_cons_of_mem _ hz))
        (fun z hz => hfit z (List.mem_cons_of_mem _ hz)) (by
          simp only [renderElems, List.cons_append, List.append_assoc, List.length_append,
            List.length_cons] at hfuel ⊢
          omega)
      rw [elems, hx]
      simp only [renderElems, List.cons_append, List.append_assoc]
      rw [skipWs_cons (by decide)]
      simp only [show (ch ',' = ch ']') = False from by simp, if_false, if_true, hpad, hys,
        Option.map_some, joinedList]

/-- The entries of an object, from the first one up to the brace. -/
theorem members_render {st : Style} (hst : st.Blank) (lvl : ℕ) {ws : PyStr}
    (hws : ∀ c ∈ ws, isWs c) (rest : PyStr) (d : Dict (Json F)) :
    ∀ (k : PyStr) (v : Json F) (fuel depth : ℕ), (∀ e ∈ (k, v) :: d, ReadsBack st e.2) →
      (∀ e ∈ (k, v) :: d, e.2.Fits depth) →
      2 * (quote k ++ ch ':' :: (st.keyPad ++ (render st lvl v ++
        (renderMembers st lvl d ++ (ws ++ ch '\x7d' :: rest))))).length + 2 ≤ fuel →
      members fuel depth (quote k ++ ch ':' :: (st.keyPad ++ (render st lvl v ++
        (renderMembers st lvl d ++ (ws ++ ch '\x7d' :: rest)))))
        = some (joinedDict ((k, v) :: d), rest) := by
  induction d with
  | nil =>
      intro k v fuel depth hread hfit hfuel
      obtain ⟨fuel, rfl⟩ : ∃ f, fuel = f + 1 := ⟨fuel - 1, by omega⟩
      have hv := hread (k, v) List.mem_cons_self lvl _ fuel depth (hfit (k, v) List.mem_cons_self)
        (delim_renderMembers st lvl [] hws rest) (by
          simp only [quote, List.cons_append, List.append_assoc, List.length_append,
            List.length_cons] at hfuel ⊢
          omega)
      simp only [quote, List.cons_append, List.append_assoc, List.nil_append]
      -- the key is read first, then the value behind the colon
      rw [members, if_pos rfl, scanString_escape]
      simp only
      rw [skipWs_cons (by decide)]
      simp only [if_true, skipWs_append hst.2, skipWs_render, hv]
      simp only [renderMembers, List.nil_append, skipWs_append hws]
      rw [skipWs_cons (by decide)]
      simp [joinedDict]
  | cons e d ih =>
      obtain ⟨k', v'⟩ := e
      intro k v fuel depth hread hfit hfuel
      obtain ⟨fuel, rfl⟩ : ∃ f, fuel = f + 1 := ⟨fuel - 1, by omega⟩
      have hv := hread (k, v) List.mem_cons_self lvl _ fuel depth (hfit (k, v) List.mem_cons_self)
        (delim_renderMembers st lvl ((k', v') :: d) hws rest) (by
          simp only [quote, List.cons_append, List.append_assoc, List.length_append,
            List.length_cons] at hfuel ⊢
          omega)
      have hpad : ∀ s, skipWs (st.itemPad ++ (st.newline lvl ++ (quote k' ++ s)))
          = quote k' ++ s := fun s => by
        rw [skipWs_append hst.1, skipWs_append (isWs_newline st lvl), quote, List.cons_append,
          skipWs_cons (by decide)]
      have hd := ih k' v' fuel depth (fun z hz => hread z (List.mem_cons_of_mem _ hz))
        (fun z hz => hfit z (List.mem_cons_of_mem _ hz)) (by
          simp only [renderMembers, quote, List.cons_append, List.append_assoc,
            List.length_append, List.length_cons] at hfuel ⊢
          omega)
      rw [quote]
      simp only [List.cons_append, List.append_assoc, List.nil_append]
      rw [members, if_pos rfl, scanString_escape]
      simp only
      rw [skipWs_cons (by decide)]
      simp only [if_true, skipWs_append hst.2, skipWs_render, hv]
      simp only [renderMembers, List.cons_append, List.append_assoc]
      rw [skipWs_cons (by decide)]
      simp only [show (ch ',' = ch '\x7d') = False from by simp, if_false, if_true, hpad, hd,
        Option.map_some, joinedDict]

/-- **Values.**  Whatever the layout, a rendered value is scanned back with its surrogate
pairs joined. -/
theorem readsBack {st : Style} (hst : st.Blank) (v : Json F) : ReadsBack st v := by
  induction v using Json.induct with
  | null =>
      intro lvl rest fuel depth _ _ hfuel
      obtain ⟨fuel, rfl⟩ : ∃ f, fuel = f + 1 := ⟨fuel - 1, by omega⟩
      have h : value (F := F) (fuel + 1) depth (ch 'n' :: (py "ull" ++ rest))
          = scanScalar (py "null" ++ rest) :=
        value_eq_scanScalar fuel depth (by decide) (by decide) (by decide) _
      refine h.trans ?_
      simp [scanScalar, constants, stripPrefix_append, Json.joined]
  | bool b =>
      intro lvl rest fuel depth _ _ hfuel
      obtain ⟨fuel, rfl⟩ : ∃ f, fuel = f + 1 := ⟨fuel - 1, by omega⟩
      cases b
      · have h : value (F := F) (fuel + 1) depth (ch 'f' :: (py "alse" ++ rest))
            = scanScalar (py "false" ++ rest) :=
          value_eq_scanScalar fuel depth (by decide) (by decide) (by decide) _
        -- the constants are tried in order, and the earlier ones are no prefix
        have h1 : stripPrefix (py "null") (py "false" ++ rest) = none := rfl
        have h2 : stripPrefix (py "true") (py "false" ++ rest) = none := rfl
        refine h.trans ?_
        simp [scanScalar, constants, h1, h2, stripPrefix_append, Json.joined]
      · have h : value (F := F) (fuel + 1) depth (ch 't' :: (py "rue" ++ rest))
            = scanScalar (py "true" ++ rest) :=
          value_eq_scanScalar fuel depth (by decide) (by decide) (by decide) _
        have h1 : stripPrefix (py "null") (py "true" ++ rest) = none := rfl
        refine h.trans ?_
        simp [scanScalar, constants, h1, stripPrefix_append, Json.joined]
  | int i =>
      intro lvl rest fuel depth hfit hrest hfuel
      obtain ⟨fuel, rfl⟩ : ∃ f, fuel = f + 1 := ⟨fuel - 1, by omega⟩
      -- a number is told from the other values by its first code point
      obtain ⟨c, r, hc, hcs⟩ : ∃ c r, intText i = c :: r ∧ (isDigit c = true ∨ c = ch '-') := by
        obtain ⟨c, r, hn, hc, -⟩ := natText_head (n := i.natAbs)
        by_cases hneg : i < 0
        · exact ⟨ch '-', natText i.natAbs, by simp [intText, hneg], .inr rfl⟩
        · exact ⟨c, r, by simp [intText, hneg, hn], .inl hc⟩
      have hne : ∀ d : Char, d.isDigit = false → d ≠ '-' → c ≠ ch d := by
        rintro d hd hdash rfl
        rcases hcs with h | h
        · rw [isDigit_ch, hd] at h
          exact Bool.false_ne_true h
        · exact hdash (ch_inj.mp h)
      have h := value_eq_scanScalar (F := F) fuel depth (hne '"' rfl (by decide))
        (hne '\x7b' rfl (by decide)) (hne '[' rfl (by decide)) (r ++ rest)
      rw [← List.cons_append, ← hc] at h
      exact h.trans (scanScalar_int hfit hrest)
  | float x =>
      intro lvl rest fuel depth _ hrest hfuel
      obtain ⟨fuel, rfl⟩ : ∃ f, fuel = f + 1 := ⟨fuel - 1, by omega⟩
      obtain ⟨c, r, hc, hcs⟩ := LawfulRuntime.head_floatJson x
      have hne : ∀ d : Char, d.isDigit = false → d ≠ '-' → d ≠ 'N' → d ≠ 'I' → c ≠ ch d := by
        rintro d hd hdash hN hI rfl
        rcases hcs with h | h | h | h
        · rw [isDigit_ch, hd] at h
          exact Bool.false_ne_true h
        · exact hdash (ch_inj.mp h)
        · exact hN (ch_inj.mp h)
        · exact hI (ch_inj.mp h)
      have h := value_eq_scanScalar (F := F) fuel depth
        (hne '"' rfl (by decide) (by decide) (by decide))
        (hne '\x7b' rfl (by decide) (by decide) (by decide))
        (hne '[' rfl (by decide) (by decide) (by decide)) (r ++ rest)
      rw [← List.cons_append, ← hc] at h
      exact h.trans (LawfulRuntime.scan_floatJson x rest hrest)
  | str s =>
      intro lvl rest fuel depth _ _ hfuel
      obtain ⟨fuel, rfl⟩ : ∃ f, fuel = f + 1 := ⟨fuel - 1, by omega⟩
      simp only [render, quote, List.cons_append, List.append_assoc, List.nil_append]
      -- no code point of an escaped text ends the string early
      rw [value_quote, scanString_escape]
      rfl
  | arr xs ih =>
      intro lvl rest fuel depth hfit _ hfuel
      obtain ⟨fuel, rfl⟩ : ∃ f, fuel = f + 1 := ⟨fuel - 1, by omega⟩
      obtain ⟨hd, hxs⟩ := hfit
      -- an array takes one level of nesting, which the bound on the depth leaves
      obtain ⟨depth, rfl⟩ : ∃ d, depth = d + 1 := ⟨depth - 1, by omega⟩
      rcases xs with - | ⟨x, xs⟩
      · exact value_bracket fuel depth (skipWs_cons (by decide) rest)
      · obtain ⟨c, r, hc, -, hne⟩ := render_head st (lvl + 1) x
        have hskip : ∀ s, skipWs (st.newline (lvl + 1) ++ (render st (lvl + 1) x ++ s))
            = c :: (r ++ s) := fun s => by
          rw [skipWs_append (isWs_newline st _), skipWs_render, hc, List.cons_append]
        have hel := elems_render hst (lvl + 1) (isWs_newline st lvl) rest xs x fuel depth ih
          (fitsList_iff.mp hxs) (by
            simp only [render, List.cons_append, List.append_assoc, List.length_append,
              List.length_cons] at hfuel ⊢
            omega)
        rw [hc, List.cons_append] at hel
        simp only [render, List.cons_append, List.append_assoc, List.nil_append]
        rw [value_bracket fuel depth (hskip _), if_neg hne, hel]
        rfl
  | obj d ih =>
      intro lvl rest fuel depth hfit _ hfuel
      obtain ⟨fuel, rfl⟩ : ∃ f, fuel = f + 1 := ⟨fuel - 1, by omega⟩
      obtain ⟨hd, hxs⟩ := hfit
      obtain ⟨depth, rfl⟩ : ∃ d, depth = d + 1 := ⟨depth - 1, by omega⟩
      rcases d with - | ⟨⟨k, v⟩, d⟩
      · exact value_brace fuel depth (skipWs_cons (by decide) rest)
      · -- an object that is not empty goes on with a quote, not with a brace
        have hskip : ∀ s, skipWs (st.newline (lvl + 1) ++ (quote k ++ s))
            = ch '"' :: (escape k ++ ch '"' :: s) := fun s => by
          rw [skipWs_append (isWs_newline st _), quote, List.cons_append,
            skipWs_cons (by decide), List.append_assoc, List.singleton_append]
        have hmem := members_render hst (lvl + 1) (isWs_newline st lvl) rest d k v fuel depth ih
          (fitsDict_iff.mp hxs) (by
            simp only [render, List.cons_append, List.append_assoc, List.length_append,
              List.length_cons] at hfuel ⊢
            omega)
        rw [quote, List.cons_append, List.append_assoc, List.singleton_append] at hmem
        simp only [render, List.cons_append, List.append_assoc, List.nil_append]
        rw [value_brace fuel depth (hskip _), if_neg (by decide), hmem]
        rfl

/-- A text read back before repeated keys are resolved. -/
theorem loadsPairs_dumps {st : Style} (hst : st.Blank) {v : Json F}
    (hv : v.Fits (Runtime.maxDepth F)) : loadsPairs (dumps st v) = some v.joined := by
  have h := readsBack hst v 0 [] (2 * (dumps st v).length + 1) (Runtime.maxDepth F) hv
    (fun c r h => by simp at h) (by simp [dumps])
  have hskip : skipWs (dumps st v) = dumps st v := by
    simpa [dumps] using skipWs_render st 0 v []
  rw [List.append_nil] at h
  rw [loadsPairs, hskip]
  simp only [dumps] at h ⊢
  rw [h]
  rfl

/-- Everything `json.dumps` writes is printable, but for the layout. -/
theorem forall_mem_render {st : Style} {P : CodePoint → Prop}
    (hp : ∀ c : CodePoint, 0x20 ≤ c.val ∧ c.val < 0x7f → P c)
    (hip : ∀ c ∈ st.itemPad, P c) (hkp : ∀ c ∈ st.keyPad, P c)
    (hnl : ∀ lvl, ∀ c ∈ st.newline lvl, P c) (v : Json F) :
    ∀ lvl, ∀ c ∈ render st lvl v, P c := by
  have text : ∀ {s : PyStr}, Printable s → ∀ c ∈ s, P c := fun h c hc => hp c (h c hc)
  have sign : ∀ {c : Char}, 0x20 ≤ c.toNat ∧ c.toNat < 0x7f → P (ch c) := fun h => hp _ h
  induction v using Json.induct with
  | null => exact fun _ => text (printable_py (s := "null") (by decide))
  | bool b =>
      cases b
      · exact fun _ => text (printable_py (s := "false") (by decide))
      · exact fun _ => text (printable_py (s := "true") (by decide))
  | int i => exact fun _ => text (printable_intText i)
  | float x => exact fun _ => text (LawfulRuntime.printable_floatJson x)
  | str s => exact fun _ => text (printable_quote s)
  | arr xs ih =>
      intro lvl
      -- behind the first item each one has its own comma and layout
      have helems : ∀ l : List (Json F), (∀ x ∈ l, ∀ lvl, ∀ c ∈ render st lvl x, P c) →
          ∀ lvl, ∀ c ∈ renderElems st lvl l, P c := by
        intro l hl lvl
        induction l with
        | nil => exact fun _ hc => absurd hc List.not_mem_nil
        | cons x l ihl =>
            obtain ⟨hx, hl'⟩ := List.forall_mem_cons.mp hl
            simp only [renderElems, List.forall_mem_cons, List.forall_mem_append]
            exact ⟨sign (by decide), ⟨⟨hip, hnl lvl⟩, hx lvl⟩, ihl hl'⟩
      rcases xs with - | ⟨x, xs⟩
      · exact text (printable_py (s := "[]") (by decide))
      · obtain ⟨hx, hxs⟩ := List.forall_mem_cons.mp ih
        simp only [render, List.forall_mem_cons, List.forall_mem_append]
        exact ⟨sign (by decide), ⟨⟨⟨hnl _, hx _⟩, helems xs hxs _⟩, hnl _⟩, sign (by decide),
          by simp⟩
  | obj d ih =>
      intro lvl
      have hmembers : ∀ l : Dict (Json F), (∀ e ∈ l, ∀ lvl, ∀ c ∈ render st lvl e.2, P c) →
          ∀ lvl, ∀ c ∈ renderMembers st lvl l, P c := by
        intro l hl lvl
        induction l with
        | nil => exact fun _ hc => absurd hc List.not_mem_nil
        | cons e l ihl =>
            obtain ⟨he, hl'⟩ := List.forall_mem_cons.mp hl
            simp only [renderMembers, List.append_assoc, List.cons_append, List.forall_mem_cons,
              List.forall_mem_append]
            exact ⟨sign (by decide), hip, hnl lvl, text (printable_quote _), sign (by decide), hkp,
              he lvl, ihl hl'⟩
      rcases d with - | ⟨⟨k, v⟩, d⟩
      · exact text (printable_py (s := "\x7b\x7d") (by decide))
      · obtain ⟨hv, hd⟩ := List.forall_mem_cons.mp ih
        simp only [render, List.append_assoc, List.cons_append, List.forall_mem_cons,
          List.forall_mem_append]
        exact ⟨sign (by decide), hnl _, text (printable_quote _), sign (by decide), hkp, hv _,
          hmembers d hd _, hnl _, sign (by decide), by simp⟩

/-- `json.dumps` writes ASCII, and no NUL. -/
theorem isAscii_render {st : Style} (hst : st.Blank) (v : Json F) (lvl : ℕ) :
    IsAscii (render st lvl v) :=
  forall_mem_render (P := fun c => 0 < c.val ∧ c.val < 0x80) (fun _ _ => by omega)
    (isAscii_of_isWs hst.1) (isAscii_of_isWs hst.2)
    (fun lvl => isAscii_of_isWs (isWs_newline st lvl)) v lvl

theorem loadsText_dumps {st : Style} (hst : st.Blank) {v : Json F}
    (hv : v.Fits (Runtime.maxDepth F)) : loadsText (dumps st v) = some v.joined.dedupe := by
  obtain ⟨c, r, hc, -, -⟩ := render_head st 0 v
  have hascii : c.val < 0x80 := by
    have := isAscii_render hst v 0
    rw [hc] at this
    exact (this c List.mem_cons_self).2
  have hne : (dumps st v).head? ≠ some 0xfeff := by
    rw [dumps, hc, List.head?_cons]
    intro h
    rw [Option.some.inj h] at hascii
    exact absurd hascii (by decide)
  rw [loadsText, if_neg hne, loadsPairs_dumps hst hv]
  rfl

/-- **Reading back.**  `json.loads` of what `json.dumps` wrote, repeated keys resolved. -/
theorem loads_dumps_joined {st : Style} (hst : st.Blank) {v : Json F}
    (hv : v.Fits (Runtime.maxDepth F)) :
    loads (encode (dumps st v)) = some v.joined.dedupe := by
  have hd : decodeDetected (encode (dumps st v)) = some (dumps st v) :=
    decodeDetected_ascii (isAscii_render hst v 0)
  rw [loads, hd]
  exact loadsText_dumps hst hv

/-! ### What the text determines -/

omit [Runtime F] [LawfulRuntime F] in
theorem escape_joinPairs (s : PyStr) : escape (joinPairs s) = escape s := by
  induction s using joinPairs.induct with
  | case1 => rfl
  | case2 c => rfl
  | case3 c d r hcd ih =>
      obtain ⟨hc, hd⟩ : isHigh c = true ∧ isLow d = true := by simpa using hcd
      simp only [isHigh, isLow, Bool.and_eq_true, decide_eq_true_iff] at hc hd
      have hv : (joinPair c d).val = 0x10000 + (c.val - 0xd800) * 0x400 + (d.val - 0xdc00) := by
        rw [joinPair, codePoint, dif_pos (by omega)]
      -- a surrogate on its own is escaped by its number, and so is each half of a joined pair
      have plainEscape : ∀ e : CodePoint, 0xd800 ≤ e.val → e.val < 0x10000 →
          escapeChar e = uEscape e.val := by
        intro e h1 h2
        have hne : ∀ a : Char, a.toNat < 0x80 → e ≠ ch a := by
          rintro a ha rfl
          simp only [ch_val] at h1
          omega
        simp only [escapeChar, hne '"' (by decide), hne '\\' (by decide), hne '\n' (by decide),
          hne '\r' (by decide), hne '\t' (by decide), if_false,
          show e.val ≠ 0x0c by omega, show e.val ≠ 0x08 by omega,
          show ¬(0x20 ≤ e.val ∧ e.val ≤ 0x7e) by omega, h2, if_true]
      have pairEscape : escapeChar (joinPair c d) = uEscape c.val ++ uEscape d.val := by
        have hne : ∀ a : Char, a.toNat < 0x80 → joinPair c d ≠ ch a := by
          intro a ha h
          have := congrArg (fun x : CodePoint => x.val) h
          simp only [hv, ch_val] at this
          omega
        have h1 : 0xd800 + ((joinPair c d).val - 0x10000) / 0x400 = c.val := by omega
        have h2 : 0xdc00 + ((joinPair c d).val - 0x10000) % 0x400 = d.val := by omega
        simp only [escapeChar, hne '"' (by decide), hne '\\' (by decide), hne '\n' (by decide),
          hne '\r' (by decide), hne '\t' (by decide), if_false,
          show (joinPair c d).val ≠ 0x0c by omega, show (joinPair c d).val ≠ 0x08 by omega,
          show ¬(0x20 ≤ (joinPair c d).val ∧ (joinPair c d).val ≤ 0x7e) by omega,
          show ¬(joinPair c d).val < 0x10000 by omega, h1, h2]
      rw [joinPairs, if_pos hcd]
      simp only [escape, List.flatMap_cons] at ih ⊢
      rw [ih, pairEscape, plainEscape c hc.1 (by omega), plainEscape d (by omega) (by omega),
        List.append_assoc]
  | case4 c d r hcd ih =>
      rw [joinPairs, if_neg hcd]
      simp only [escape, List.flatMap_cons] at ih ⊢
      rw [ih]

omit [LawfulRuntime F] in
theorem render_joined (st : Style) (v : Json F) :
    ∀ lvl, render st lvl v.joined = render st lvl v := by
  -- joining changes no text, since a joined pair is escaped as the pair
  have hquote : ∀ s, quote (joinPairs s) = quote s := fun s => by
    rw [quote, quote, escape_joinPairs]
  induction v using Json.induct with
  | null => exact fun _ => rfl
  | bool b => exact fun _ => rfl
  | int i => exact fun _ => rfl
  | float x => exact fun _ => rfl
  | str s => exact fun _ => hquote s
  | arr xs ih =>
      have helems : ∀ l : List (Json F), (∀ x ∈ l, ∀ lvl, render st lvl x.joined = render st lvl x) →
          ∀ lvl, renderElems st lvl (joinedList l) = renderElems st lvl l := by
        intro l hl lvl
        induction l with
        | nil => rfl
        | cons x l ihl =>
            obtain ⟨hx, hl'⟩ := List.forall_mem_cons.mp hl
            simp only [joinedList, renderElems, hx, ihl hl']
      intro lvl
      rcases xs with - | ⟨x, xs⟩
      · rfl
      · obtain ⟨hx, hxs⟩ := List.forall_mem_cons.mp ih
        simp only [Json.joined, joinedList, render, hx, helems xs hxs]
  | obj d ih =>
      have hmembers : ∀ l : Dict (Json F),
          (∀ e ∈ l, ∀ lvl, render st lvl e.2.joined = render st lvl e.2) →
          ∀ lvl, renderMembers st lvl (joinedDict l) = renderMembers st lvl l := by
        intro l hl lvl
        induction l with
        | nil => rfl
        | cons e l ihl =>
            obtain ⟨he, hl'⟩ := List.forall_mem_cons.mp hl
            simp only [joinedDict, renderMembers, he, ihl hl', hquote]
      intro lvl
      rcases d with - | ⟨⟨k, v⟩, d⟩
      · rfl
      · obtain ⟨hv, hd⟩ := List.forall_mem_cons.mp ih
        simp only [Json.joined, joinedDict, render, hv, hmembers d hd, hquote]

/-- Two values have one text exactly when they agree once their surrogate pairs are joined. -/
theorem dumps_eq_iff {st : Style} (hst : st.Blank) {v w : Json F}
    (hv : v.Fits (Runtime.maxDepth F)) (hw : w.Fits (Runtime.maxDepth F)) :
    dumps st v = dumps st w ↔ v.joined = w.joined := by
  constructor
  · intro h
    have := congrArg (loadsPairs (F := F)) h
    rw [loadsPairs_dumps hst hv, loadsPairs_dumps hst hw] at this
    exact Option.some.inj this
  · intro h
    rw [dumps, dumps, ← render_joined st v, ← render_joined st w, h]

/-! ### Values that lose nothing -/

theorem map_eq_self {α : Type} {f : α → α} {xs : List α} (h : ∀ x ∈ xs, f x = x) :
    xs.map f = xs :=
  (List.map_congr_left h).trans (List.map_id' xs)

omit [Runtime F] [LawfulRuntime F] in
theorem joinPairs_of_not_high {s : PyStr} (h : ∀ c ∈ s, isHigh c = false) : joinPairs s = s := by
  induction s using joinPairs.induct with
  | case1 => rfl
  | case2 c => rfl
  | case3 c d r hcd ih =>
      have := h c List.mem_cons_self
      simp [this] at hcd
  | case4 c d r hcd ih =>
      rw [joinPairs, if_neg hcd, ih fun e he => h e (List.mem_cons_of_mem _ he)]

omit [Runtime F] [LawfulRuntime F] in
theorem joinPairs_of_ascii {s : PyStr} (h : IsAscii s) : joinPairs s = s := by
  refine joinPairs_of_not_high fun c hc => ?_
  have := (h c hc).2
  simp only [isHigh, Bool.and_eq_false_iff, decide_eq_false_iff_not]
  omega

omit [Runtime F] [LawfulRuntime F] in
theorem joinPairs_py {s : String}
    (h : (s.toList.all fun c => 0x20 ≤ c.toNat && c.toNat < 0x7f) = true) :
    joinPairs (py s) = py s := joinPairs_of_ascii (printable_py h).isAscii

omit [Runtime F] [LawfulRuntime F] in
theorem joinedList_eq_map (xs : List (Json F)) : joinedList xs = xs.map Json.joined := by
  induction xs with
  | nil => rfl
  | cons x xs ih => simp [joinedList, ih]

omit [Runtime F] [LawfulRuntime F] in
theorem joinedDict_eq_map (d : Dict (Json F)) :
    joinedDict d = d.map fun e => (joinPairs e.1, e.2.joined) := by
  induction d with
  | nil => rfl
  | cons e d ih => simp [joinedDict, ih]

omit [Runtime F] [LawfulRuntime F] in
theorem dedupeList_eq_map (xs : List (Json F)) : dedupeList xs = xs.map Json.dedupe := by
  induction xs with
  | nil => rfl
  | cons x xs ih => simp [dedupeList, ih]

omit [Runtime F] [LawfulRuntime F] in
theorem dedupeDict_eq_map (d : Dict (Json F)) :
    dedupeDict d = d.map fun e => (e.1, e.2.dedupe) := by
  induction d with
  | nil => rfl
  | cons e d ih => simp [dedupeDict, ih]

mutual
/-- No string of the value has a surrogate pair to join, and no key is repeated. -/
def Json.Clean : Json F → Prop
  | .str s => joinPairs s = s
  | .arr xs => CleanList xs
  | .obj d => (Dict.keys d).Nodup ∧ CleanDict d
  | _ => True
def CleanList : List (Json F) → Prop
  | [] => True
  | x :: xs => x.Clean ∧ CleanList xs
def CleanDict : List (PyStr × Json F) → Prop
  | [] => True
  | (k, v) :: d => (joinPairs k = k ∧ v.Clean) ∧ CleanDict d
end

omit [Runtime F] [LawfulRuntime F] in
theorem cleanList_iff {xs : List (Json F)} : CleanList xs ↔ ∀ x ∈ xs, x.Clean := by
  induction xs with
  | nil => simp [CleanList]
  | cons x xs ih => simp [CleanList, ih]

omit [Runtime F] [LawfulRuntime F] in
theorem cleanDict_iff {d : Dict (Json F)} :
    CleanDict d ↔ ∀ e ∈ d, joinPairs e.1 = e.1 ∧ e.2.Clean := by
  induction d with
  | nil => simp [CleanDict]
  | cons e d ih => simp [CleanDict, ih]

omit [Runtime F] [LawfulRuntime F] in
theorem Json.Clean.joined_eq {v : Json F} (h : v.Clean) : v.joined = v := by
  induction v using Json.induct with
  | str s => exact congrArg Json.str h
  | arr xs ih =>
      have hxs := cleanList_iff.mp h
      rw [Json.joined, joinedList_eq_map]
      exact congrArg Json.arr (map_eq_self fun x hx => ih x hx (hxs x hx))
  | obj d ih =>
      have hd := cleanDict_iff.mp h.2
      rw [Json.joined, joinedDict_eq_map]
      exact congrArg Json.obj (map_eq_self fun e he =>
        Prod.ext (hd e he).1 (ih e he (hd e he).2))
  | _ => rfl

omit [Runtime F] [LawfulRuntime F] in
theorem Json.Clean.dedupe_eq {v : Json F} (h : v.Clean) : v.dedupe = v := by
  induction v using Json.induct with
  | arr xs ih =>
      have hxs := cleanList_iff.mp h
      rw [Json.dedupe, dedupeList_eq_map]
      exact congrArg Json.arr (map_eq_self fun x hx => ih x hx (hxs x hx))
  | obj d ih =>
      have hd := cleanDict_iff.mp h.2
      have hmap : dedupeDict d = d := by
        rw [dedupeDict_eq_map]
        exact map_eq_self fun e he => Prod.ext rfl (ih e he (hd e he).2)
      rw [Json.dedupe, hmap, Dict.update_nil h.1]
  | _ => rfl

/-- **`json.loads` inverts `json.dumps`** on values that lose nothing in the text. -/
theorem loads_dumps {st : Style} (hst : st.Blank) {v : Json F}
    (hv : v.Fits (Runtime.maxDepth F)) (hc : v.Clean) : loads (encode (dumps st v)) = some v := by
  rw [loads_dumps_joined hst hv, hc.joined_eq, hc.dedupe_eq]

end LawfulRuntime

end Py
