/-
ReSchema/Py/Codec.lean

The text codecs: UTF-8 under the three error handlers the code names, and the
encoding detection by which `json.loads` reads bytes.

`decodeUtf8` reads one sequence after another.  A sequence that is none is
answered by the handler: `strict` fails, `replace` writes U+FFFD for each
maximal invalid prefix, and `surrogatepass` admits the three octets of a
surrogate and fails on everything else.

On ASCII every one of them is the identity (`decodeUtf8_ascii`), which is all
that the round trips need.
-/
import ReSchema.Py.Json

namespace Py

/-! ### UTF-8 -/

/-- The `errors` argument of `decode`. -/
inductive OnError
  | strict
  | replace
  | surrogatepass

/-- A continuation octet. -/
def isCont (b : UInt8) : Bool := 0x80 ≤ b && b ≤ 0xbf

/-- The code point of the given value, U+FFFD beyond the code space. -/
def codePoint (n : ℕ) : CodePoint := if h : n < 0x110000 then ⟨n, h⟩ else 0xfffd

/-- The second octet of a sequence, whose range depends on the first. -/
def isSecond (b0 b1 : UInt8) : Bool :=
  if b0 = 0xe0 then 0xa0 ≤ b1 && b1 ≤ 0xbf
  else if b0 = 0xed then 0x80 ≤ b1 && b1 ≤ 0x9f
  else if b0 = 0xf0 then 0x90 ≤ b1 && b1 ≤ 0xbf
  else if b0 = 0xf4 then 0x80 ≤ b1 && b1 ≤ 0x8f
  else isCont b1

/-- The code point of two, three and four octets. -/
def join2 (b0 b1 : UInt8) : CodePoint := codePoint ((b0.toNat % 0x20) * 0x40 + b1.toNat % 0x40)
def join3 (b0 b1 b2 : UInt8) : CodePoint :=
  codePoint ((b0.toNat % 0x10) * 0x1000 + (b1.toNat % 0x40) * 0x40 + b2.toNat % 0x40)
def join4 (b0 b1 b2 b3 : UInt8) : CodePoint :=
  codePoint ((b0.toNat % 0x08) * 0x40000 + (b1.toNat % 0x40) * 0x1000 +
    (b2.toNat % 0x40) * 0x40 + b3.toNat % 0x40)

/-- The handler that lets surrogates through. -/
def OnError.passes : OnError → Bool
  | .surrogatepass => true
  | _ => false

/-- What a handler makes of an invalid prefix, before the decoded rest. -/
def OnError.recover (e : OnError) (rest : Option PyStr) : Option PyStr :=
  match e with
  | .replace => rest.map (0xfffd :: ·)
  | _ => none

/-- `b.decode(errors=e)`, with `none` for `UnicodeDecodeError`. -/
def decodeUtf8 (e : OnError) : Bytes → Option PyStr
  | [] => some []
  | b0 :: r0 =>
      if b0 < 0x80 then (decodeUtf8 e r0).map (codePoint b0.toNat :: ·)
      else if b0 < 0xc2 ∨ 0xf4 < b0 then e.recover (decodeUtf8 e r0)
      else match r0 with
        | [] => e.recover (some [])
        | b1 :: r1 =>
            if b0 < 0xe0 then
              if isCont b1 then (decodeUtf8 e r1).map (join2 b0 b1 :: ·)
              else e.recover (decodeUtf8 e (b1 :: r1))
            else if isSecond b0 b1 then
              match r1 with
              | [] => e.recover (some [])
              | b2 :: r2 =>
                  if isCont b2 then
                    if b0 < 0xf0 then (decodeUtf8 e r2).map (join3 b0 b1 b2 :: ·)
                    else match r2 with
                      | [] => e.recover (some [])
                      | b3 :: r3 =>
                          if isCont b3 then (decodeUtf8 e r3).map (join4 b0 b1 b2 b3 :: ·)
                          else e.recover (decodeUtf8 e (b3 :: r3))
                  else e.recover (decodeUtf8 e (b2 :: r2))
            else if e.passes && b0 == 0xed && isCont b1 then
              -- the three octets of a surrogate
              match r1 with
              | b2 :: r2 =>
                  if isCont b2 then (decodeUtf8 e r2).map (join3 b0 b1 b2 :: ·) else none
              | [] => none
            else e.recover (decodeUtf8 e (b1 :: r1))

/-- The octets of one code point; a surrogate takes three, as `surrogatepass` writes it. -/
def encodeChar (c : CodePoint) : Bytes :=
  if c.val < 0x80 then [UInt8.ofNat c.val]
  else if c.val < 0x800 then
    [UInt8.ofNat (0xc0 + c.val / 0x40), UInt8.ofNat (0x80 + c.val % 0x40)]
  else if c.val < 0x10000 then
    [UInt8.ofNat (0xe0 + c.val / 0x1000), UInt8.ofNat (0x80 + c.val / 0x40 % 0x40),
      UInt8.ofNat (0x80 + c.val % 0x40)]
  else
    [UInt8.ofNat (0xf0 + c.val / 0x40000), UInt8.ofNat (0x80 + c.val / 0x1000 % 0x40),
      UInt8.ofNat (0x80 + c.val / 0x40 % 0x40), UInt8.ofNat (0x80 + c.val % 0x40)]

/-- `s.encode()`, and `s.encode(errors="surrogatepass")` where `s` has surrogates. -/
def encode (s : PyStr) : Bytes := s.flatMap encodeChar

/-! ### UTF-16 and UTF-32 -/

/-- Whether a code point is a high, respectively a low, surrogate. -/
def isHigh (c : CodePoint) : Bool := 0xd800 ≤ c.val && c.val ≤ 0xdbff
def isLow (c : CodePoint) : Bool := 0xdc00 ≤ c.val && c.val ≤ 0xdfff

/-- The code point that a surrogate pair stands for. -/
def joinPair (hi lo : CodePoint) : CodePoint :=
  codePoint (0x10000 + (hi.val - 0xd800) * 0x400 + (lo.val - 0xdc00))

/-- High surrogates joined with the low ones behind them. -/
def joinPairs : PyStr → PyStr
  | [] => []
  | [c] => [c]
  | c :: d :: r =>
      if isHigh c && isLow d then joinPair c d :: joinPairs r else c :: joinPairs (d :: r)

/-- The 16-bit units of a UTF-16 text. -/
def units16 (big : Bool) : Bytes → Option PyStr
  | [] => some []
  | [_] => none
  | a :: b :: r =>
      let hi := if big then a else b
      let lo := if big then b else a
      (units16 big r).map (codePoint (hi.toNat * 0x100 + lo.toNat) :: ·)

/-- `b.decode("utf-16-..", "surrogatepass")`: pairs are joined, lone surrogates stay. -/
def decodeUtf16 (big : Bool) (b : Bytes) : Option PyStr := (units16 big b).map joinPairs

/-- `b.decode("utf-32-..", "surrogatepass")`. -/
def decodeUtf32 (big : Bool) : Bytes → Option PyStr
  | [] => some []
  | a :: b :: c :: d :: r =>
      let n := if big then ((a.toNat * 0x100 + b.toNat) * 0x100 + c.toNat) * 0x100 + d.toNat
        else ((d.toNat * 0x100 + c.toNat) * 0x100 + b.toNat) * 0x100 + a.toNat
      if n < 0x110000 then (decodeUtf32 big r).map (codePoint n :: ·) else none
  | _ => none

/-! ### The encoding of a JSON text -/

/-- The encodings `json.detect_encoding` tells apart, with the length of the byte order mark. -/
inductive Encoding
  | utf8 (bom : ℕ)
  | utf16 (big : Bool) (bom : ℕ)
  | utf32 (big : Bool) (bom : ℕ)

/-- Four octets or more, by which of the leading ones are zero. -/
def detectWide : Bytes → Encoding
  | a :: b :: c :: d :: _ =>
      if a = 0 then (if b = 0 then .utf32 true 0 else .utf16 true 0)
      else if b = 0 then (if c = 0 ∧ d = 0 then .utf32 false 0 else .utf16 false 0)
      else .utf8 0
  | [a, b] => if a = 0 then .utf16 true 0 else if b = 0 then .utf16 false 0 else .utf8 0
  | _ => .utf8 0

/-- `json.detect_encoding(b)`. -/
def detectEncoding (b : Bytes) : Encoding :=
  if [0x00, 0x00, 0xfe, 0xff].isPrefixOf b then .utf32 true 4
  else if [0xff, 0xfe, 0x00, 0x00].isPrefixOf b then .utf32 false 4
  else if [0xfe, 0xff].isPrefixOf b then .utf16 true 2
  else if [0xff, 0xfe].isPrefixOf b then .utf16 false 2
  else if [0xef, 0xbb, 0xbf].isPrefixOf b then .utf8 3
  else detectWide b

/-- `b.decode(detect_encoding(b), "surrogatepass")`. -/
def decodeDetected (b : Bytes) : Option PyStr :=
  match detectEncoding b with
  | .utf8 n => decodeUtf8 .surrogatepass (b.drop n)
  | .utf16 big n => decodeUtf16 big (b.drop n)
  | .utf32 big n => decodeUtf32 big (b.drop n)

/-! ### ASCII -/

/-- All code points are below 0x80 and none is NUL. -/
def IsAscii (s : PyStr) : Prop := ∀ c ∈ s, 0 < c.val ∧ c.val < 0x80

theorem encode_cons (c : CodePoint) (s : PyStr) : encode (c :: s) = encodeChar c ++ encode s :=
  List.flatMap_cons

theorem encodeChar_ascii {c : CodePoint} (h : c.val < 0x80) :
    encodeChar c = [UInt8.ofNat c.val] := by
  simp [encodeChar, h]

theorem encode_ascii {s : PyStr} (h : IsAscii s) :
    encode s = s.map fun c => UInt8.ofNat c.val := by
  induction s with
  | nil => rfl
  | cons c s ih =>
      obtain ⟨hc, hs⟩ := List.forall_mem_cons.mp h
      rw [encode_cons, encodeChar_ascii hc.2, ih hs]
      rfl

theorem codePoint_val (c : CodePoint) : codePoint c.val = c := by
  simp [codePoint]

theorem toNat_ofNat_ascii {c : CodePoint} (h : c.val < 0x80) :
    (UInt8.ofNat c.val).toNat = c.val := by
  rw [UInt8.toNat_ofNat']
  omega

/-- Whatever the handler, ASCII decodes to itself. -/
theorem decodeUtf8_ascii (e : OnError) {s : PyStr} (h : IsAscii s) :
    decodeUtf8 e (encode s) = some s := by
  induction s with
  | nil => rfl
  | cons c s ih =>
      obtain ⟨hc, hs⟩ := List.forall_mem_cons.mp h
      have hlt : UInt8.ofNat c.val < 0x80 := by
        rw [UInt8.lt_iff_toNat_lt, toNat_ofNat_ascii hc.2]
        exact hc.2
      rw [encode_cons, encodeChar_ascii hc.2, List.singleton_append, decodeUtf8.eq_def]
      simp only [hlt, if_true, ih hs, toNat_ofNat_ascii hc.2, codePoint_val, Option.map_some]

theorem ofNat_ne_of_ascii {c : CodePoint} (h : 0 < c.val ∧ c.val < 0x80) {b : UInt8}
    (hb : b = 0 ∨ 0x80 ≤ b.toNat) : UInt8.ofNat c.val ≠ b := by
  rintro rfl
  rw [toNat_ofNat_ascii h.2] at hb
  rcases hb with hb | hb
  · have := congrArg UInt8.toNat hb
    rw [toNat_ofNat_ascii h.2] at this
    simp at this
    omega
  · omega

/-- A JSON text in ASCII is detected as UTF-8 and read as it stands. -/
theorem decodeDetected_ascii {s : PyStr} (h : IsAscii s) :
    decodeDetected (encode s) = some s := by
  have key : detectEncoding (encode s) = .utf8 0 := by
    rw [encode_ascii h]
    have ne0 : ∀ c ∈ s, UInt8.ofNat c.val ≠ 0 := fun c hc =>
      ofNat_ne_of_ascii (h c hc) (.inl rfl)
    have neHigh : ∀ c ∈ s, ∀ b : UInt8, 0x80 ≤ b.toNat → (b == UInt8.ofNat c.val) = false :=
      fun c hc b hb => by simpa using (ofNat_ne_of_ascii (h c hc) (.inr hb)).symm
    have neNul : ∀ c ∈ s, ((0 : UInt8) == UInt8.ofNat c.val) = false :=
      fun c hc => by simpa using (ne0 c hc).symm
    rcases s with - | ⟨a, - | ⟨b, - | ⟨c, - | ⟨d, r⟩⟩⟩⟩
    · rfl
    all_goals
      have ha := ne0 a (by simp)
      have haN := neNul a (by simp)
      have haF := neHigh a (by simp) 0xff (by decide)
      have haE := neHigh a (by simp) 0xfe (by decide)
      have haB := neHigh a (by simp) 0xef (by decide)
      simp [detectEncoding, detectWide, List.isPrefixOf, haN, haF, haE, haB, ha]
    · exact ne0 b (by simp)
    · exact fun hb => absurd hb (ne0 b (by simp))
  rw [decodeDetected, key]
  exact decodeUtf8_ascii _ h

end Py
