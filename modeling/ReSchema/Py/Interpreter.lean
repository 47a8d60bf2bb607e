/-
ReSchema/Py/Interpreter.lean

An interpreter whose only float is zero.

It reads every numeral with a fraction or an exponent as 0.0 and knows the
word characters of ASCII alone; in all else it is as the class `Runtime`
wants it, and it reads its own floats (`LawfulRuntime`).  Results about every
interpreter are tried out on this one.
-/
import ReSchema.Py.RoundTrip

namespace Py

/-- The floats of the interpreter. -/
inductive ZeroFloat
  | zero

/-- `[0-9A-Za-z_]`. -/
def isAsciiWord (c : CodePoint) : Bool :=
  isDigit c || (0x41 ≤ c.val && c.val ≤ 0x5a) || (0x61 ≤ c.val && c.val ≤ 0x7a) || c == ch '_'

instance : Runtime ZeroFloat where
  floatOfText _ := .zero
  floatJson _ := py "0.0"
  floatRepr _ := py "0.0"
  floatEq _ _ := true
  floatEqInt _ i := i == 0
  isPrintable _ := true
  isWord := isAsciiWord
  decimal _ := none
  maxDepth := 1000
  loadsError _ := py "Expecting value: line 1 column 1 (char 0)"
  sha256 _ := []

theorem scanNumber_zero {rest : PyStr} (hr : Delim rest) :
    scanNumber (F := ZeroFloat) (py "0.0" ++ rest) = some (.float .zero, rest) := by
  obtain ⟨ht, hd⟩ := @takeWhile_digits [] _ (by simp) hr
  rw [List.nil_append] at ht hd
  have hs : py "0.0" ++ rest = ch '0' :: ch '.' :: ch '0' :: rest := rfl
  have hsign : scanSign (py "0.0" ++ rest) = ([], py "0.0" ++ rest) := by simp [hs, scanSign]
  have hint : scanInt (py "0.0" ++ rest) = some ([ch '0'], ch '.' :: ch '0' :: rest) := by
    simp [hs, scanInt]
  have hfrac : scanFrac (ch '.' :: ch '0' :: rest) = (py ".0", rest) := by
    have hzero : isDigit (ch '0') = true := by decide
    simp [scanFrac, hzero, ht, hd, py]
  rw [scanNumber, hsign]
  simp only [hint, hfrac, scanExp_delim hr]
  simp [py]

instance : LawfulRuntime ZeroFloat where
  scan_floatJson := by
    rintro ⟨⟩ rest hr
    have hnum := scanNumber_zero hr
    have hpre : ∀ p ∈ (constants : List (PyStr × Json ZeroFloat)),
        p.1.isPrefixOf (py "0.0" ++ rest) = false := by
      simp only [constants, List.forall_mem_cons]
      exact ⟨rfl, rfl, rfl, rfl, rfl, rfl, by simp⟩
    have hfloat : Runtime.floatJson ZeroFloat.zero = py "0.0" := rfl
    rw [hfloat, scanScalar, constants_none hpre]
    exact hnum
  printable_floatJson _ := printable_py (by decide)
  head_floatJson _ := ⟨ch '0', py ".0", rfl, .inl (by decide)⟩
  maxDepth_le := by decide
  length_floatRepr _ := show (py "0.0").length ≤ 100 by decide

end Py
