/-
ReSchema/Py/Text.lean

Python text and bytes.

A Python `str` is a sequence of code points in which lone surrogates may
stand, so `PyStr` is a list of numbers below 0x110000 and not a Lean `String`.
`bytes` is a list of octets.  The file has the renderings and readings that
the standard library puts on top of the two: decimal and hexadecimal numerals,
`bytes.hex` and `bytes.fromhex`, `str.splitlines`, `str.split` and
`str.partition`.

The two facts used everywhere are that the literals written in the source stay
apart (`py_inj`) and that `bytes.fromhex` inverts `bytes.hex` (`fromHex_hex`).
-/
import Mathlib

namespace Py

/-! ### Code points, strings, bytes -/

/-- A code point; the surrogates U+D800..U+DFFF are among them. -/
abbrev CodePoint := Fin 0x110000

/-- A Python `str`. -/
abbrev PyStr := List CodePoint

/-- A Python `bytes`. -/
abbrev Bytes := List UInt8

instance codeSpaceNeZero : NeZero 0x110000 := ⟨by decide⟩

instance codePointLawfulBEq : LawfulBEq CodePoint := inferInstance

instance pyStrLawfulBEq : LawfulBEq PyStr := inferInstance

/-- The code point of a character. -/
def ch (c : Char) : CodePoint :=
  ⟨c.toNat, by have := c.valid; simp only [UInt32.isValidChar, Nat.isValidChar] at this
               simp only [Char.toNat]; omega⟩

/-- A literal of the source. -/
def py (s : String) : PyStr := s.toList.map ch

@[simp] theorem ch_inj {a b : Char} : ch a = ch b ↔ a = b := by
  constructor
  · intro h
    have hv : a.toNat = b.toNat := congrArg (fun c : CodePoint => c.val) h
    exact Char.toNat_inj.mp hv
  · rintro rfl
    rfl

@[simp] theorem py_inj {s t : String} : py s = py t ↔ s = t := by
  unfold py
  rw [(List.map_injective_iff.mpr fun _ _ => ch_inj.mp).eq_iff, String.toList_inj]

@[simp] theorem py_beq (s t : String) : (py s == py t) = decide (s = t) := by
  rw [Bool.eq_iff_iff, beq_iff_eq, py_inj, decide_eq_true_iff]

@[simp] theorem ch_val (c : Char) : (ch c).val = c.toNat := rfl

/-! ### Numerals -/

/-- `str(n)` of a natural number. -/
def natText (n : ℕ) : PyStr := (Nat.toDigits 10 n).map ch

/-- `str(i)`, also `int.__repr__`. -/
def intText (i : ℤ) : PyStr :=
  if i < 0 then ch '-' :: natText i.natAbs else natText i.natAbs

/-- `hex(i)`. -/
def hexText (i : ℤ) : PyStr :=
  if i < 0 then py "-0x" ++ (Nat.toDigits 16 i.natAbs).map ch
  else py "0x" ++ (Nat.toDigits 16 i.natAbs).map ch

/-- The hexadecimal digit of a number below 16, in lower case. -/
def hexDigit (n : ℕ) : CodePoint := ch (Nat.digitChar n)

/-- The value of a hexadecimal digit of either case. -/
def hexVal (c : CodePoint) : Option ℕ :=
  if 0x30 ≤ c.val ∧ c.val ≤ 0x39 then some (c.val - 0x30)
  else if 0x61 ≤ c.val ∧ c.val ≤ 0x66 then some (c.val - 0x57)
  else if 0x41 ≤ c.val ∧ c.val ≤ 0x46 then some (c.val - 0x37)
  else none

theorem hexVal_hexDigit : ∀ n, n < 16 → hexVal (hexDigit n) = some n := by decide

/-- `isdigit` on ASCII. -/
def isDigit (c : CodePoint) : Bool := 0x30 ≤ c.val && c.val ≤ 0x39

theorem isDigit_ch (c : Char) : isDigit (ch c) = c.isDigit := by
  rw [Bool.eq_iff_iff, Char.isDigit_iff_toNat, isDigit, Bool.and_eq_true,
    decide_eq_true_iff, decide_eq_true_iff]
  rfl

theorem natText_ne_nil (n : ℕ) : natText n ≠ [] := by
  simp [natText, Nat.toDigits_ne_nil]

theorem isDigit_of_mem_natText {n : ℕ} {c : CodePoint} (h : c ∈ natText n) :
    isDigit c = true := by
  obtain ⟨d, hd, rfl⟩ := List.mem_map.mp h
  rw [isDigit_ch]
  exact Nat.isDigit_of_mem_toDigits (by decide) (by decide) hd

/-! ### Hexadecimal bytes -/

/-- `bytes.hex()`. -/
def hex : Bytes → PyStr
  | [] => []
  | b :: bs => hexDigit (b.toNat / 16) :: hexDigit (b.toNat % 16) :: hex bs

/-- The white space `bytes.fromhex` skips between two bytes. -/
def isAsciiSpace (c : CodePoint) : Bool := c.val == 0x20 || (0x09 ≤ c.val && c.val ≤ 0x0d)

/-- `bytes.fromhex(s)`, with `none` for its `ValueError`. -/
def fromHex : PyStr → Option Bytes
  | [] => some []
  | c :: r =>
      if isAsciiSpace c then fromHex r
      else match r with
        | [] => none
        | d :: r' =>
            match hexVal c, hexVal d with
            | some a, some b => (fromHex r').map (UInt8.ofNat (16 * a + b) :: ·)
            | _, _ => none

theorem not_isAsciiSpace_hexDigit : ∀ n, n < 16 → isAsciiSpace (hexDigit n) = false := by
  decide

/-- `bytes.fromhex` reads back what `bytes.hex` writes. -/
@[simp] theorem fromHex_hex (bs : Bytes) : fromHex (hex bs) = some bs := by
  induction bs with
  | nil => rfl
  | cons b bs ih =>
      have hb : b.toNat < 256 := b.toNat_lt
      have h1 : b.toNat / 16 < 16 := by omega
      have h2 : b.toNat % 16 < 16 := by omega
      have hval : UInt8.ofNat (16 * (b.toNat / 16) + b.toNat % 16) = b := by
        rw [Nat.div_add_mod, UInt8.ofNat_toNat]
      simp only [hex, fromHex, not_isAsciiSpace_hexDigit _ h1, hexVal_hexDigit _ h1,
        hexVal_hexDigit _ h2, ih, Option.map_some, hval, Bool.false_eq_true, if_false]

theorem hex_injective : Function.Injective hex := fun a b h => by
  have := congrArg fromHex h
  simpa using this

/-! ### Lines -/

/-- The line boundaries of `str.splitlines`, `\r\n` apart. -/
def isLineBreak (c : CodePoint) : Bool :=
  (0x0a ≤ c.val && c.val ≤ 0x0d) || (0x1c ≤ c.val && c.val ≤ 0x1e) || c.val == 0x85 ||
    c.val == 0x2028 || c.val == 0x2029

/-- `str.splitlines()`: `\r\n` is one boundary, and a boundary at the end opens no line.
`cur` is the line read so far, `fresh` whether nothing of it has been read. -/
def splitLinesFrom (cur : PyStr) (fresh : Bool) : PyStr → List PyStr
  | [] => if fresh then [] else [cur]
  | c :: r =>
      if c = ch '\r' then
        match r with
        | d :: r' => if d = ch '\n' then cur :: splitLinesFrom [] true r'
                     else cur :: splitLinesFrom [] true (d :: r')
        | [] => [cur]
      else if isLineBreak c then cur :: splitLinesFrom [] true r
      else splitLinesFrom (cur ++ [c]) false r

/-- `str.splitlines()`. -/
def splitLines (s : PyStr) : List PyStr := splitLinesFrom [] true s

/-! ### Separators -/

/-- `s.split(sep)` with `skip` code points of a separator still to pass and `cur` the piece so
far. -/
def splitGo (sep : PyStr) : ℕ → PyStr → PyStr → List PyStr
  | _, cur, [] => [cur]
  | skip + 1, cur, _ :: r => splitGo sep skip cur r
  | 0, cur, c :: r =>
      if sep.isPrefixOf (c :: r) then cur :: splitGo sep (sep.length - 1) [] r
      else splitGo sep 0 (cur ++ [c]) r

/-- `s.split(sep)`. -/
def splitText (sep s : PyStr) : List PyStr := splitGo sep 0 [] s

/-- `s.partition(sep)` without the separator, for a separator that is not empty. -/
def partition (sep : PyStr) : PyStr → PyStr × PyStr
  | [] => ([], [])
  | c :: r =>
      if sep.isPrefixOf (c :: r) then ([], (c :: r).drop sep.length)
      else
        let p := partition sep r
        (c :: p.1, p.2)

end Py
