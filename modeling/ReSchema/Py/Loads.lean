/-
ReSchema/Py/Loads.lean

`json.loads`.

The scanner follows the C implementation: strict strings, surrogate pairs
joined where both halves are written as escapes, the constants NaN, Infinity
and -Infinity, integers of at most 4300 digits, and a nesting limit.  It is
recursive descent with fuel; `loadsText` gives it two units for each code
point, and no call ever needs more (`value_fuel`).

Repeated keys are resolved after scanning (`dedupe`): the last value wins and
the first place stays.  Every failure is `none`; the callers catch
`ValueError` and `RecursionError` alike.
-/
import ReSchema.Py.Codec

namespace Py

variable {F : Type} [Runtime F]

/-! ### White space, literals, strings -/

/-- The white space between tokens. -/
def isWs (c : CodePoint) : Bool :=
  c == ch ' ' || c == ch '\t' || c == ch '\n' || c == ch '\r'

/-- Past the white space. -/
def skipWs (s : PyStr) : PyStr := s.dropWhile isWs

/-- What follows a prefix. -/
def stripPrefix (p s : PyStr) : Option PyStr :=
  if p.isPrefixOf s then some (s.drop p.length) else none

/-- Four hexadecimal digits. -/
def hex4 (a b c d : CodePoint) : Option CodePoint :=
  match hexVal a, hexVal b, hexVal c, hexVal d with
  | some w, some x, some y, some z => some (codePoint (((w * 16 + x) * 16 + y) * 16 + z))
  | _, _, _, _ => none

/-- The escapes of one letter. -/
def simpleEscape (c : CodePoint) : Option CodePoint :=
  if c = ch '"' then some (ch '"')
  else if c = ch '\\' then some (ch '\\')
  else if c = ch '/' then some (ch '/')
  else if c = ch 'b' then some 0x08
  else if c = ch 'f' then some 0x0c
  else if c = ch 'n' then some (ch '\n')
  else if c = ch 'r' then some (ch '\r')
  else if c = ch 't' then some (ch '\t')
  else none

/-- The code points of a string body, each with whether a `\u` escape wrote it, and what
follows the closing quote. -/
def scanItems : PyStr → Option (List (Bool × CodePoint) × PyStr)
  | [] => none
  | c :: r =>
      if c = ch '"' then some ([], r)
      else if c = ch '\\' then
        match r with
        | [] => none
        | e :: r1 =>
            if e = ch 'u' then
              match r1 with
              | x :: y :: z :: w :: r2 =>
                  match hex4 x y z w with
                  | some u => (scanItems r2).map fun p => ((true, u) :: p.1, p.2)
                  | none => none
              | _ => none
            else match simpleEscape e with
              | some u => (scanItems r1).map fun p => ((false, u) :: p.1, p.2)
              | none => none
      else if c.val < 0x20 then none
      else (scanItems r).map fun p => ((false, c) :: p.1, p.2)

/-- A surrogate pair is joined where both halves are escapes. -/
def joinItems : List (Bool × CodePoint) → PyStr
  | [] => []
  | [a] => [a.2]
  | a :: b :: r =>
      if a.1 && b.1 && isHigh a.2 && isLow b.2 then joinPair a.2 b.2 :: joinItems r
      else a.2 :: joinItems (b :: r)

/-- A string after its opening quote. -/
def scanString (s : PyStr) : Option (PyStr × PyStr) :=
  (scanItems s).map fun p => (joinItems p.1, p.2)

/-! ### Numbers and constants -/

/-- The number that decimal digits name. -/
def digitsVal (ds : PyStr) : ℕ := ds.foldl (fun n c => 10 * n + (c.val - 0x30)) 0

/-- An optional minus sign. -/
def scanSign : PyStr → PyStr × PyStr
  | c :: r => if c = ch '-' then ([c], r) else ([], c :: r)
  | [] => ([], [])

/-- The integer part: a zero, or digits that start with none. -/
def scanInt : PyStr → Option (PyStr × PyStr)
  | c :: r =>
      if c = ch '0' then some ([c], r)
      else if isDigit c then some (c :: r.takeWhile isDigit, r.dropWhile isDigit)
      else none
  | [] => none

/-- The fraction, empty unless a digit follows the point. -/
def scanFrac : PyStr → PyStr × PyStr
  | p :: c :: r =>
      if p = ch '.' ∧ isDigit c then (p :: c :: r.takeWhile isDigit, r.dropWhile isDigit)
      else ([], p :: c :: r)
  | s => ([], s)

/-- The exponent, empty unless it has a digit. -/
def scanExp : PyStr → PyStr × PyStr
  | e :: c :: r =>
      if (e = ch 'e' ∨ e = ch 'E') ∧ isDigit c then
        (e :: c :: r.takeWhile isDigit, r.dropWhile isDigit)
      else if (e = ch 'e' ∨ e = ch 'E') ∧ (c = ch '+' ∨ c = ch '-') then
        match r with
        | d :: r' =>
            if isDigit d then (e :: c :: d :: r'.takeWhile isDigit, r'.dropWhile isDigit)
            else ([], e :: c :: r)
        | [] => ([], e :: c :: r)
      else ([], e :: c :: r)
  | s => ([], s)

/-- The digits `int` converts before `ValueError`. -/
def maxStrDigits : ℕ := 4300

/-- A number. -/
def scanNumber (s : PyStr) : Option (Json F × PyStr) :=
  match scanInt (scanSign s).2 with
  | none => none
  | some (ds, r) =>
      let frac := scanFrac r
      let exp := scanExp frac.2
      if frac.1 = [] ∧ exp.1 = [] then
        if ds.length ≤ maxStrDigits then
          some (.int (if (scanSign s).1 = [] then digitsVal ds else -digitsVal ds), r)
        else none
      else some (.float (Runtime.floatOfText ((scanSign s).1 ++ ds ++ frac.1 ++ exp.1)), exp.2)

/-- The constants, in the order the scanner looks for them. -/
def constants : List (PyStr × Json F) :=
  [(py "null", .null), (py "true", .bool true), (py "false", .bool false),
    (py "NaN", .float (Runtime.floatOfText (py "NaN"))),
    (py "Infinity", .float (Runtime.floatOfText (py "Infinity"))),
    (py "-Infinity", .float (Runtime.floatOfText (py "-Infinity")))]

/-- A constant or a number. -/
def scanScalar (s : PyStr) : Option (Json F × PyStr) :=
  match constants.findSome? fun p : PyStr × Json F => (stripPrefix p.1 s).map fun r => (p.2, r) with
  | some q => some q
  | none => scanNumber s

/-! ### Values -/

mutual
/-- One value; `depth` is how far nesting may still go. -/
def value : ℕ → ℕ → PyStr → Option (Json F × PyStr)
  | 0, _, _ => none
  | _ + 1, _, [] => none
  | fuel + 1, depth, c :: r =>
      if c = ch '"' then (scanString r).map fun p => (.str p.1, p.2)
      else if c = ch '\x7b' then
        match depth, skipWs r with
        | d + 1, e :: r1 =>
            if e = ch '\x7d' then some (.obj [], r1)
            else (members fuel d (e :: r1)).map fun p => (.obj p.1, p.2)
        | _, _ => none
      else if c = ch '[' then
        match depth, skipWs r with
        | d + 1, e :: r1 =>
            if e = ch ']' then some (.arr [], r1)
            else (elems fuel d (e :: r1)).map fun p => (.arr p.1, p.2)
        | _, _ => none
      else scanScalar (c :: r)
/-- The items of an array up to its bracket. -/
def elems : ℕ → ℕ → PyStr → Option (List (Json F) × PyStr)
  | 0, _, _ => none
  | fuel + 1, depth, s =>
      match value fuel depth s with
      | none => none
      | some (v, r) =>
          match skipWs r with
          | [] => none
          | c :: r1 =>
              if c = ch ']' then some ([v], r1)
              else if c = ch ',' then
                (elems fuel depth (skipWs r1)).map fun p => (v :: p.1, p.2)
              else none
/-- The entries of an object up to its brace. -/
def members : ℕ → ℕ → PyStr → Option (List (PyStr × Json F) × PyStr)
  | 0, _, _ => none
  | _ + 1, _, [] => none
  | fuel + 1, depth, c :: s =>
      if c = ch '"' then
        match scanString s with
        | none => none
        | some (k, r) =>
            match skipWs r with
            | [] => none
            | c1 :: r1 =>
                if c1 = ch ':' then
                  match value fuel depth (skipWs r1) with
                  | none => none
                  | some (v, r2) =>
                      match skipWs r2 with
                      | [] => none
                      | c2 :: r3 =>
                          if c2 = ch '\x7d' then some ([(k, v)], r3)
                          else if c2 = ch ',' then
                            (members fuel depth (skipWs r3)).map fun p => ((k, v) :: p.1, p.2)
                          else none
                else none
      else none
end

mutual
/-- Repeated keys resolved, at every level. -/
def Json.dedupe : Json F → Json F
  | .arr xs => .arr (dedupeList xs)
  | .obj d => .obj (Dict.update [] (dedupeDict d))
  | v => v
def dedupeList : List (Json F) → List (Json F)
  | [] => []
  | x :: xs => x.dedupe :: dedupeList xs
def dedupeDict : List (PyStr × Json F) → List (PyStr × Json F)
  | [] => []
  | (k, v) :: d => (k, v.dedupe) :: dedupeDict d
end

/-! ### `json.loads` -/

/-- A whole text, with repeated keys still in it. -/
def loadsPairs (s : PyStr) : Option (Json F) :=
  match value (2 * s.length + 1) (Runtime.maxDepth F) (skipWs s) with
  | some (v, r) => if skipWs r = [] then some v else none
  | none => none

/-- `json.loads(s)` of a `str`, which may not start with a byte order mark. -/
def loadsText (s : PyStr) : Option (Json F) :=
  if s.head? = some 0xfeff then none else (loadsPairs s).map Json.dedupe

/-- `json.loads(b)` of `bytes`. -/
def loads (b : Bytes) : Option (Json F) := (decodeDetected b).bind loadsText

end Py
