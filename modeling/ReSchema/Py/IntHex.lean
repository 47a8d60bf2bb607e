/-
ReSchema/Py/IntHex.lean

`hex(i)` and `int(s, 16)`.

`int` accepts more than `hex` writes: white space around the numeral, a plus
sign, capital digits, digits of other scripts, a missing prefix, and single
underscores between the digits.  What `hex` writes it reads back (`intHex_hexText`), so `hex` is
injective.
-/
import ReSchema.Py.Text

namespace Py

/-- The white space beyond ASCII. -/
def isWideSpace (c : CodePoint) : Bool :=
  c.val == 0x85 || c.val == 0xa0 || c.val == 0x1680 || (0x2000 ≤ c.val && c.val ≤ 0x200a) ||
    c.val == 0x2028 || c.val == 0x2029 || c.val == 0x202f || c.val == 0x205f || c.val == 0x3000

/-- The zeros of the decimal digits beyond ASCII (Unicode 15.0, as Python 3.12 has it); the nine
others follow each of them. -/
def decimalZeros : List ℕ :=
  [0x660, 0x6f0, 0x7c0, 0x966, 0x9e6, 0xa66, 0xae6, 0xb66, 0xbe6, 0xc66, 0xce6, 0xd66,
    0xde6, 0xe50, 0xed0, 0xf20, 0x1040, 0x1090, 0x17e0, 0x1810, 0x1946, 0x19d0, 0x1a80,
    0x1a90, 0x1b50, 0x1bb0, 0x1c40, 0x1c50, 0xa620, 0xa8d0, 0xa900, 0xa9d0, 0xa9f0, 0xaa50,
    0xabf0, 0xff10, 0x104a0, 0x10d30, 0x11066, 0x110f0, 0x11136, 0x111d0, 0x112f0, 0x11450,
    0x114d0, 0x11650, 0x116c0, 0x11730, 0x118e0, 0x11950, 0x11c50, 0x11d50, 0x11da0,
    0x11f50, 0x16a60, 0x16ac0, 0x16b50, 0x1d7ce, 0x1d7d8, 0x1d7e2, 0x1d7ec, 0x1d7f6,
    0x1e140, 0x1e2f0, 0x1e4f0, 0x1e950, 0x1fbf0]

/-- A code point as `int` looks at it: a digit or white space of any script is the one of ASCII,
and any other code point beyond ASCII stands in no numeral. -/
def asciiOf (c : CodePoint) : CodePoint :=
  if c.val < 0x80 then c
  else if isWideSpace c then ch ' '
  else match decimalZeros.find? fun z => z ≤ c.val && c.val < z + 10 with
    | some z => hexDigit (c.val - z)
    | none => ch '?'

/-- The text without the white space at its ends. -/
def strip (s : PyStr) : PyStr := ((s.dropWhile isAsciiSpace).reverse.dropWhile isAsciiSpace).reverse

/-- The digits after the first one, whose value so far is `n`. -/
def hexTail (n : ℕ) : PyStr → Option ℕ
  | [] => some n
  | c :: r =>
      if c = ch '_' then
        match r with
        | [] => none
        | d :: r' => match hexVal d with
            | some v => hexTail (16 * n + v) r'
            | none => none
      else match hexVal c with
        | some v => hexTail (16 * n + v) r
        | none => none

/-- Digits in base 16, with single underscores between them. -/
def hexNumber : PyStr → Option ℕ
  | [] => none
  | c :: r => (hexVal c).bind fun v => hexTail v r

/-- Past the prefix `0x`, behind which one underscore may stand. -/
def dropHexPrefix : PyStr → PyStr
  | z :: x :: r =>
      if z = ch '0' ∧ (x = ch 'x' ∨ x = ch 'X') then
        match r with
        | c :: r' => if c = ch '_' then r' else c :: r'
        | [] => []
      else z :: x :: r
  | s => s

/-- `int(s, 16)`, with `none` for its `ValueError`. -/
def intHex (s : PyStr) : Option ℤ :=
  match strip (s.map asciiOf) with
  | [] => none
  | c :: r =>
      if c = ch '-' then (hexNumber (dropHexPrefix r)).map fun n => -(n : ℤ)
      else if c = ch '+' then (hexNumber (dropHexPrefix r)).map Int.ofNat
      else (hexNumber (dropHexPrefix (c :: r))).map Int.ofNat

/-! ### Reading back -/

theorem exists_of_mem_toDigits {n : ℕ} {c : Char} (h : c ∈ Nat.toDigits 16 n) :
    ∃ k < 16, Nat.digitChar k = c := by
  induction n using Nat.strong_induction_on with
  | _ n ih =>
      by_cases hn : n < 16
      · rw [Nat.toDigits_of_lt_base hn, List.mem_singleton] at h
        exact ⟨n, hn, h.symm⟩
      · rw [Nat.toDigits_of_base_le (by decide) (by omega), List.mem_append,
          List.mem_singleton] at h
        rcases h with h | h
        · exact ih (n / 16) (by omega) h
        · exact ⟨n % 16, by omega, h.symm⟩

theorem digitChar_ne_underscore {k : ℕ} (hk : k < 16) : ch (Nat.digitChar k) ≠ ch '_' := by
  rw [Ne, ch_inj]
  exact (by decide : ∀ k < 16, Nat.digitChar k ≠ '_') k hk

theorem hexTail_digit {k : ℕ} (hk : k < 16) (m : ℕ) (r : PyStr) :
    hexTail m (ch (Nat.digitChar k) :: r) = hexTail (16 * m + k) r := by
  have hv := hexVal_hexDigit k hk
  rw [hexDigit] at hv
  rw [hexTail.eq_def]
  simp only [digitChar_ne_underscore hk, if_false, hv]

theorem hexTail_digits (n m : ℕ) (r : PyStr) :
    hexTail m ((Nat.toDigits 16 n).map ch ++ r) =
      hexTail (16 ^ (Nat.toDigits 16 n).length * m + n) r := by
  induction n using Nat.strong_induction_on generalizing m r with
  | _ n ih =>
      by_cases hn : n < 16
      · simp [Nat.toDigits_of_lt_base hn, hexTail_digit hn]
      · rw [Nat.toDigits_of_base_le (by decide) (by omega), List.map_append, List.append_assoc,
          ih (n / 16) (by omega), List.length_append, pow_add]
        simp only [List.map_cons, List.map_nil, List.cons_append, List.nil_append,
          List.length_singleton, pow_one]
        rw [hexTail_digit (by omega : n % 16 < 16)]
        congr 1
        have hdm := Nat.div_add_mod n 16
        have hring : 16 * (16 ^ (Nat.toDigits 16 (n / 16)).length * m + n / 16) + n % 16
            = 16 ^ (Nat.toDigits 16 (n / 16)).length * 16 * m + (16 * (n / 16) + n % 16) := by ring
        rw [hring, hdm]

theorem toDigits_cons (n : ℕ) :
    ∃ k r, k < 16 ∧ Nat.toDigits 16 n = Nat.digitChar k :: r := by
  rcases h : Nat.toDigits 16 n with - | ⟨c, r⟩
  · exact absurd h Nat.toDigits_ne_nil
  · obtain ⟨k, hk, rfl⟩ := exists_of_mem_toDigits (n := n) (c := c) (by simp [h])
    exact ⟨k, r, hk, rfl⟩

theorem hexNumber_digits (n : ℕ) : hexNumber ((Nat.toDigits 16 n).map ch) = some n := by
  obtain ⟨k, r, hk, hr⟩ := toDigits_cons n
  have hv := hexVal_hexDigit k hk
  rw [hexDigit] at hv
  have h0 := hexTail_digits n 0 []
  rw [hr, List.append_nil, List.map_cons, hexTail_digit hk] at h0
  rw [hr, List.map_cons, hexNumber, hv, Option.bind_some]
  simpa [hexTail] using h0

theorem dropHexPrefix_digits (n : ℕ) :
    dropHexPrefix (py "0x" ++ (Nat.toDigits 16 n).map ch) = (Nat.toDigits 16 n).map ch := by
  obtain ⟨k, r, hk, hr⟩ := toDigits_cons n
  rw [hr]
  simp [py, dropHexPrefix, digitChar_ne_underscore hk]

theorem strip_digits {p : PyStr} {c : CodePoint} {r : PyStr} (hp : p = c :: r)
    (hc : isAsciiSpace c = false) (n : ℕ) :
    strip (p ++ (Nat.toDigits 16 n).map ch) = p ++ (Nat.toDigits 16 n).map ch := by
  have hlast : ∃ k l, k < 16 ∧ (Nat.toDigits 16 n).reverse = Nat.digitChar k :: l := by
    rcases h : (Nat.toDigits 16 n).reverse with - | ⟨d, l⟩
    · exact absurd (List.reverse_eq_nil_iff.mp h) Nat.toDigits_ne_nil
    · have hd : d ∈ Nat.toDigits 16 n := by
        rw [← List.mem_reverse, h]
        exact List.mem_cons_self
      obtain ⟨k, hk, rfl⟩ := exists_of_mem_toDigits hd
      exact ⟨k, l, hk, rfl⟩
  obtain ⟨k, l, hk, hl⟩ := hlast
  have hend : isAsciiSpace (ch (Nat.digitChar k)) = false :=
    (by decide : ∀ k < 16, isAsciiSpace (ch (Nat.digitChar k)) = false) k hk
  have hfront : (p ++ (Nat.toDigits 16 n).map ch).dropWhile isAsciiSpace
      = p ++ (Nat.toDigits 16 n).map ch := by
    rw [hp, List.cons_append, List.dropWhile_cons, hc]
    rfl
  have hback : (p ++ (Nat.toDigits 16 n).map ch).reverse
      = ch (Nat.digitChar k) :: (l.map ch ++ p.reverse) := by
    rw [List.reverse_append, ← List.map_reverse, hl]
    rfl
  rw [strip, hfront, hback, List.dropWhile_cons, hend]
  simp only [Bool.false_eq_true, if_false]
  rw [← hback, List.reverse_reverse]

/-- A text in ASCII is looked at as it is. -/
theorem map_asciiOf {s : PyStr} (h : ∀ c ∈ s, c.val < 0x80) : s.map asciiOf = s := by
  have hid : s.map asciiOf = s.map id := List.map_congr_left fun c hc => if_pos (h c hc)
  rw [hid, List.map_id]

theorem digits_ascii (n : ℕ) : ∀ c ∈ (Nat.toDigits 16 n).map ch, c.val < 0x80 := by
  refine List.forall_mem_map.mpr fun c hc => ?_
  obtain ⟨k, hk, rfl⟩ := exists_of_mem_toDigits hc
  exact (by decide : ∀ k < 16, (ch (Nat.digitChar k)).val < 0x80) k hk

theorem hexText_ascii (i : ℤ) : ∀ c ∈ hexText i, c.val < 0x80 := by
  have hall : ∀ p : PyStr, (p.all fun c => c.val < 0x80) = true →
      ∀ c ∈ p ++ (Nat.toDigits 16 i.natAbs).map ch, c.val < 0x80 := fun p hp =>
    List.forall_mem_append.mpr ⟨by simpa using hp, digits_ascii _⟩
  rw [hexText]
  split_ifs
  · exact hall (py "-0x") (by decide)
  · exact hall (py "0x") (by decide)

/-- `int` reads back what `hex` writes. -/
@[simp] theorem intHex_hexText (i : ℤ) : intHex (hexText i) = some i := by
  by_cases hneg : i < 0
  · have hstrip := strip_digits (p := py "-0x") rfl (by decide) i.natAbs
    have hcons : py "-0x" ++ (Nat.toDigits 16 i.natAbs).map ch
        = ch '-' :: (py "0x" ++ (Nat.toDigits 16 i.natAbs).map ch) := rfl
    rw [intHex, map_asciiOf (hexText_ascii i), hexText, if_pos hneg, hstrip, hcons]
    simp only [if_true, dropHexPrefix_digits, hexNumber_digits, Option.map_some]
    exact congrArg some (by beta_reduce; omega)
  · have hstrip := strip_digits (p := py "0x") rfl (by decide) i.natAbs
    have hcons : py "0x" ++ (Nat.toDigits 16 i.natAbs).map ch
        = ch '0' :: (py "x" ++ (Nat.toDigits 16 i.natAbs).map ch) := rfl
    rw [intHex, map_asciiOf (hexText_ascii i), hexText, if_neg hneg, hstrip, hcons]
    simp only [ch_inj, show ('0' = '-') = False by decide, show ('0' = '+') = False by decide,
      if_false]
    rw [← hcons, dropHexPrefix_digits, hexNumber_digits, Option.map_some]
    exact congrArg some (by simp only [Int.ofNat_eq_natCast]; omega)

theorem hexText_injective : Function.Injective hexText := fun i j h => by
  simpa using congrArg intHex h

end Py
