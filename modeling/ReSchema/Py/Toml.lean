/-
ReSchema/Py/Toml.lean

TOML 1.0 documents of one-line statements, read line by line.

The part of the grammar read here: blank lines and comments, bare keys and
keys in double quotes, basic strings, decimal integers, arrays that stay on
one line, `[table]` and `[[array of tables]]` headers with a key of one part,
and lines that end in LF.  Left out are dotted keys, inline tables, literal
and multi-line strings, the other numerals, booleans, dates and CR LF; a text
that uses one of them is refused.  The rules on repeated names are those of
the whole language.

A statement whose strings stand in JSON quotes (`Statement`) is where the two
notations meet.  They write the same escapes, but the `\u` of TOML names a
Unicode scalar value and that of JSON a UTF-16 unit, so a code point beyond
U+FFFF and a lone surrogate make a JSON string that is no TOML string:
`basic_escape`, from which `parse_statements` for whole documents.
-/
import ReSchema.Py.RoundTrip

namespace Py.Toml

/-! ### Values and lines -/

/-- A value. -/
inductive Value
  | str (s : PyStr)
  | int (i : ℤ)
  | arr (vs : List Value)

/-- A header line. -/
inductive Header
  | table (k : PyStr)
  | element (k : PyStr)

/-- A line. -/
inductive Line
  | blank
  | entry (k : PyStr) (v : Value)
  | header (h : Header)

/-- A Unicode scalar value. -/
def isScalar (n : ℕ) : Bool := n < 0xd800 || (0xe000 ≤ n && n < 0x110000)

/-- What may stand as itself in a comment and, the quote and the backslash apart, in a basic
string. -/
def isText (c : CodePoint) : Bool :=
  c == ch '\t' || (0x20 ≤ c.val && c.val != 0x7f && isScalar c.val)

/-- `A-Za-z0-9_-`. -/
def isBare (c : CodePoint) : Bool :=
  isDigit c || (0x41 ≤ c.val && c.val ≤ 0x5a) || (0x61 ≤ c.val && c.val ≤ 0x7a) ||
    c == ch '_' || c == ch '-'

/-- White space inside a line. -/
def isBlank (c : CodePoint) : Bool := c == ch ' ' || c == ch '\t'

/-- Past the white space. -/
def skip (s : PyStr) : PyStr := s.dropWhile isBlank

/-- The escapes of one letter. -/
def shortEscape (c : CodePoint) : Option CodePoint :=
  if c = ch '"' then some (ch '"')
  else if c = ch '\\' then some (ch '\\')
  else if c = ch 'b' then some 0x08
  else if c = ch 't' then some (ch '\t')
  else if c = ch 'n' then some (ch '\n')
  else if c = ch 'f' then some 0x0c
  else if c = ch 'r' then some (ch '\r')
  else none

/-- The code point that a `\u` or `\U` escape of this number stands for. -/
def scalar (n : ℕ) : Option CodePoint := if isScalar n then some (codePoint n) else none

/-- A basic string after its opening quote, and what follows the closing one. -/
def basic : PyStr → Option (PyStr × PyStr)
  | [] => none
  | c :: r =>
      if c = ch '"' then some ([], r)
      else if c = ch '\\' then
        match r with
        | [] => none
        | e :: r1 =>
            if e = ch 'u' then
              match r1 with
              | x :: y :: z :: w :: r2 =>
                  match (hex4 x y z w).bind fun u => scalar u.val with
                  | some u => (basic r2).map fun p => (u :: p.1, p.2)
                  | none => none
              | _ => none
            else if e = ch 'U' then
              match r1 with
              | a :: b :: c :: d :: x :: y :: z :: w :: r2 =>
                  match (hex4 a b c d).bind fun hi => (hex4 x y z w).bind fun lo =>
                      scalar (0x10000 * hi.val + lo.val) with
                  | some u => (basic r2).map fun p => (u :: p.1, p.2)
                  | none => none
              | _ => none
            else match shortEscape e with
              | some u => (basic r1).map fun p => (u :: p.1, p.2)
              | none => none
      else if isText c then (basic r).map fun p => (c :: p.1, p.2)
      else none

/-- A decimal integer. -/
def integer : PyStr → Option (ℤ × PyStr)
  | [] => none
  | c :: r =>
      if c = ch '-' then (scanInt r).map fun p => (-digitsVal p.1, p.2)
      else if c = ch '+' then (scanInt r).map fun p => (digitsVal p.1, p.2)
      else (scanInt (c :: r)).map fun p => (digitsVal p.1, p.2)

mutual
/-- A value. -/
def value : ℕ → PyStr → Option (Value × PyStr)
  | 0, _ => none
  | _ + 1, [] => none
  | fuel + 1, c :: r =>
      if c = ch '"' then (basic r).map fun p => (.str p.1, p.2)
      else if c = ch '[' then (elems fuel (skip r)).map fun p => (.arr p.1, p.2)
      else (integer (c :: r)).map fun p => (.int p.1, p.2)
/-- The items of an array up to its closing bracket; a comma may stand after the last. -/
def elems : ℕ → PyStr → Option (List Value × PyStr)
  | 0, _ => none
  | _ + 1, [] => none
  | fuel + 1, c :: r =>
      if c = ch ']' then some ([], r)
      else (value fuel (c :: r)).bind fun p =>
        match skip p.2 with
        | [] => none
        | d :: r' =>
            if d = ch ']' then some ([p.1], r')
            else if d = ch ',' then (elems fuel (skip r')).map fun q => (p.1 :: q.1, q.2)
            else none
end

/-- A key of one part. -/
def key : PyStr → Option (PyStr × PyStr)
  | [] => none
  | c :: r =>
      if c = ch '"' then basic r
      else if isBare c then some (c :: r.takeWhile isBare, r.dropWhile isBare)
      else none

/-- Nothing is left of the line but white space and a comment. -/
def isLineEnd (s : PyStr) : Bool :=
  match skip s with
  | [] => true
  | c :: r => c == ch '#' && r.all isText

/-- A header after its first bracket. -/
def header : PyStr → Option Header
  | [] => none
  | c :: r =>
      if c = ch '[' then
        (key (skip r)).bind fun p =>
          match skip p.2 with
          | a :: b :: t =>
              if a = ch ']' ∧ b = ch ']' ∧ isLineEnd t then some (.element p.1) else none
          | _ => none
      else
        (key (skip (c :: r))).bind fun p =>
          match skip p.2 with
          | a :: t => if a = ch ']' ∧ isLineEnd t then some (.table p.1) else none
          | [] => none

/-- `key = value`. -/
def keyval (s : PyStr) : Option Line :=
  (key s).bind fun p =>
    match skip p.2 with
    | [] => none
    | e :: r =>
        if e = ch '=' then
          (value (r.length + 1) (skip r)).bind fun q =>
            if isLineEnd q.2 then some (.entry p.1 q.1) else none
        else none

/-- A line without its line feed. -/
def readLine (s : PyStr) : Option Line :=
  match skip s with
  | [] => some .blank
  | c :: r =>
      if c = ch '#' then if r.all isText then some .blank else none
      else if c = ch '[' then (header r).map .header
      else keyval (c :: r)

/-! ### Documents -/

/-- A table whose values are no tables. -/
abbrev Table := Dict Value

/-- What a name of the document stands for. -/
inductive Node
  | value (v : Value)
  | table (t : Table)
  | tables (ts : List Table)

/-- A document. -/
abbrev Document := Dict Node

/-- The entries before the first header, and every header with its entries. -/
def sections : List Line → Table × List (Header × Table)
  | [] => ([], [])
  | .blank :: ls => sections ls
  | .entry k v :: ls => ((k, v) :: (sections ls).1, (sections ls).2)
  | .header h :: ls => ([], (h, (sections ls).1) :: (sections ls).2)

/-- One section joins the document.  A table's name must be new; an array of tables grows by
an element, but no other node does. -/
def join (doc : Document) : Header × Table → Option Document
  | (.table k, t) => if k ∈ doc.keys then none else some (doc.set k (.table t))
  | (.element k, t) =>
      match doc.lookup k with
      | none => some (doc.set k (.tables [t]))
      | some (.tables ts) => some (doc.set k (.tables (ts ++ [t])))
      | some _ => none

/-- The document of its sections, none of which may repeat a key. -/
def assemble (root : Table) (secs : List (Header × Table)) : Option Document :=
  if root.keys.Nodup ∧ ∀ s ∈ secs, s.2.keys.Nodup then
    secs.foldlM join (root.map fun e => (e.1, .value e.2))
  else none

/-- A document, with `none` where the text is none. -/
def parse (s : PyStr) : Option Document :=
  ((s.splitOn (ch '\n')).mapM readLine).bind fun ls => assemble (sections ls).1 (sections ls).2

/-- A document in a file: the text is UTF-8. -/
def loads (b : Bytes) : Option Document := (decodeUtf8 .strict b).bind parse

/-! ### Strings between JSON quotes -/

/-- No code point beyond U+FFFF and no surrogate: each is one UTF-16 unit and a scalar value. -/
def Bmp (s : PyStr) : Prop := ∀ c ∈ s, c.val < 0x10000 ∧ isScalar c.val = true

instance (s : PyStr) : Decidable (Bmp s) :=
  decidable_of_iff (s.all fun c => c.val < 0x10000 && isScalar c.val) (by
    simp only [List.all_eq_true, Bool.and_eq_true, decide_eq_true_iff, Bmp])

@[simp] theorem bmp_nil : Bmp [] := fun _ h => absurd h List.not_mem_nil

theorem bmp_cons {c : CodePoint} {s : PyStr} :
    Bmp (c :: s) ↔ (c.val < 0x10000 ∧ isScalar c.val = true) ∧ Bmp s :=
  List.forall_mem_cons

theorem bmp_append {s t : PyStr} : Bmp (s ++ t) ↔ Bmp s ∧ Bmp t := List.forall_mem_append

theorem bmp_of_ascii {s : PyStr} (h : ∀ c ∈ s, c.val < 0x80) : Bmp s := by
  intro c hc
  have hlt := h c hc
  refine ⟨by omega, ?_⟩
  simp only [isScalar, Bool.or_eq_true, decide_eq_true_iff]
  omega

/-- TOML takes the numeric escape of a JSON string where its number is a scalar value. -/
theorem basic_uEscape {n : ℕ} (h : n < 0x10000) (s : PyStr) :
    basic (uEscape n ++ s) =
      if isScalar n then (basic s).map fun p => (codePoint n :: p.1, p.2) else none := by
  obtain ⟨a, b, c, d, hd, hv⟩ := hex4_hexFixed h
  have hu : uEscape n = ch '\\' :: ch 'u' :: [a, b, c, d] := by
    rw [uEscape, hd]
    rfl
  have hval : (codePoint n).val = n := by
    simp [codePoint, show n < 0x110000 by omega]
  rw [hu]
  simp only [List.cons_append, List.nil_append]
  rw [basic.eq_def]
  by_cases hs : isScalar n = true
  · simp [hv, scalar, hval, hs]
  · simp [hv, scalar, hval, hs]

theorem basic_short {e u : CodePoint} (he : e ≠ ch 'u') (he' : e ≠ ch 'U')
    (hu : shortEscape e = some u) (s : PyStr) :
    basic (ch '\\' :: e :: s) = (basic s).map fun p => (u :: p.1, p.2) := by
  rw [basic.eq_def]
  simp [he, he', hu]

theorem basic_raw {c : CodePoint} (h1 : c ≠ ch '"') (h2 : c ≠ ch '\\') (h3 : isText c = true)
    (s : PyStr) : basic (c :: s) = (basic s).map fun p => (c :: p.1, p.2) := by
  rw [basic.eq_def]
  simp [h1, h2, h3]

/-- The code points that JSON writes without a number. -/
theorem basic_escapeChar_short {c : CodePoint} (h : HasShort c) (s : PyStr) :
    basic (escapeChar c ++ s) = (basic s).map fun p => (c :: p.1, p.2) := by
  unfold escapeChar
  split_ifs with h1 h2 h3 h4 h5 h6 h7 h8 h9
  · subst h1
    exact basic_short (by decide) (by decide) rfl s
  · subst h2
    exact basic_short (by decide) (by decide) rfl s
  · subst h3
    exact basic_short (by decide) (by decide) rfl s
  · subst h4
    exact basic_short (by decide) (by decide) rfl s
  · subst h5
    exact basic_short (by decide) (by decide) rfl s
  · obtain rfl : c = 0x0c := Fin.ext h6
    exact basic_short (by decide) (by decide) rfl s
  · obtain rfl : c = 0x08 := Fin.ext h7
    exact basic_short (by decide) (by decide) rfl s
  · apply basic_raw h1 h2
    simp only [isText, isScalar, Bool.or_eq_true, Bool.and_eq_true, decide_eq_true_iff,
      bne_iff_ne]
    omega
  all_goals exact absurd h (by unfold HasShort; tauto)

theorem escapeChar_of_not_short {c : CodePoint} (h : ¬HasShort c) :
    escapeChar c = if c.val < 0x10000 then uEscape c.val
      else uEscape (0xd800 + (c.val - 0x10000) / 0x400) ++
        uEscape (0xdc00 + (c.val - 0x10000) % 0x400) := by
  simp only [HasShort, not_or] at h
  obtain ⟨h1, h2, h3, h4, h5, h6, h7, h8⟩ := h
  simp only [escapeChar, h1, h2, h3, h4, h5, h6, h7, h8, if_false]

/-- The pair that JSON writes beyond U+FFFF starts with a number that TOML refuses. -/
theorem basic_escapeChar (c : CodePoint) (s : PyStr) :
    basic (escapeChar c ++ s) =
      if c.val < 0x10000 ∧ isScalar c.val = true then
        (basic s).map fun p => (c :: p.1, p.2)
      else none := by
  by_cases hs : HasShort c
  · have hc : c.val < 0x80 := by
      rcases hs with rfl | rfl | rfl | rfl | rfl | h | h | h
      any_goals decide
      all_goals omega
    have hbmp : c.val < 0x10000 ∧ isScalar c.val = true := by
      simp only [isScalar, Bool.or_eq_true, decide_eq_true_iff]
      omega
    rw [basic_escapeChar_short hs, if_pos hbmp]
  · rw [escapeChar_of_not_short hs]
    by_cases hc : c.val < 0x10000
    · simp only [hc, if_true, true_and, basic_uEscape hc, codePoint_val]
    · have hlt := c.isLt
      have hhigh : isScalar (0xd800 + (c.val - 0x10000) / 0x400) = false := by
        simp only [isScalar, Bool.or_eq_false_iff, Bool.and_eq_false_iff, decide_eq_false_iff_not]
        omega
      simp only [hc, if_false, false_and, List.append_assoc]
      rw [basic_uEscape (by omega), hhigh]
      rfl

/-- A JSON string is a TOML string, and then names the same text, exactly when all of it is in
the first plane and no surrogate is in it. -/
theorem basic_escape (s rest : PyStr) :
    basic (escape s ++ ch '"' :: rest) = if Bmp s then some (s, rest) else none := by
  induction s with
  | nil =>
      rw [if_pos bmp_nil, basic.eq_def]
      simp [escape]
  | cons c s ih =>
      have he : escape (c :: s) = escapeChar c ++ escape s := List.flatMap_cons
      rw [he, List.append_assoc, basic_escapeChar, ih]
      by_cases hc : c.val < 0x10000 ∧ isScalar c.val = true
      · by_cases hs : Bmp s
        · rw [if_pos hc, if_pos hs, if_pos (bmp_cons.mpr ⟨hc, hs⟩)]
          rfl
        · rw [if_pos hc, if_neg hs, if_neg fun h => hs (bmp_cons.mp h).2]
          rfl
      · rw [if_neg hc, if_neg fun h => hc (bmp_cons.mp h).1]

theorem key_quote (s rest : PyStr) :
    key (quote s ++ rest) = if Bmp s then some (s, rest) else none := by
  have hq : quote s ++ rest = ch '"' :: (escape s ++ ch '"' :: rest) := by simp [quote]
  rw [hq, key, if_pos rfl, basic_escape]

/-! ### Statements a JSON encoder writes -/

/-- A name that needs no quotes. -/
structure BareKey where
  text : PyStr
  ne_nil : text ≠ []
  bare : text.all isBare = true

/-- A value that JSON and TOML write alike, but for the escapes of its strings. -/
inductive Datum
  | str (s : PyStr)
  | int (i : ℤ)
  | strs (ss : List PyStr)

/-- The text `json.dumps` gives it. -/
def Datum.text : Datum → PyStr
  | .str s => quote s
  | .int i => intText i
  | .strs [] => py "[]"
  | .strs (s :: ss) => ch '[' :: (quote s ++ (ss.flatMap fun t => py ", " ++ quote t) ++ [ch ']'])

def Datum.value : Datum → Value
  | .str s => .str s
  | .int i => .int i
  | .strs ss => .arr (ss.map .str)

/-- The strings that stand in quotes. -/
def Datum.strings : Datum → List PyStr
  | .str s => [s]
  | .int _ => []
  | .strs ss => ss

/-- A line. -/
inductive Statement
  /-- `k = d`. -/
  | field (k : BareKey) (d : Datum)
  /-- `"k" = d`. -/
  | entry (k : PyStr) (d : Datum)
  /-- `[k]`. -/
  | table (k : BareKey)
  /-- `[[k]]`. -/
  | element (k : BareKey)

def Statement.text : Statement → PyStr
  | .field k d => k.text ++ py " = " ++ d.text
  | .entry k d => quote k ++ py " = " ++ d.text
  | .table k => ch '[' :: (k.text ++ py "]")
  | .element k => py "[[" ++ (k.text ++ py "]]")

def Statement.line : Statement → Line
  | .field k d => .entry k.text d.value
  | .entry k d => .entry k d.value
  | .table k => .header (.table k.text)
  | .element k => .header (.element k.text)

def Statement.strings : Statement → List PyStr
  | .field _ d => d.strings
  | .entry k d => k :: d.strings
  | .table _ => []
  | .element _ => []

/-! ### Reading a statement -/

theorem skip_cons {c : CodePoint} (h : isBlank c = false) (s : PyStr) : skip (c :: s) = c :: s := by
  simp [skip, h]

theorem skip_space (s : PyStr) : skip (ch ' ' :: s) = skip s := rfl

theorem skip_quote (s rest : PyStr) : skip (quote s ++ rest) = quote s ++ rest :=
  skip_cons (by decide) _

/-- A bare key ends at the first code point that is not bare. -/
theorem key_bare (k : BareKey) {c : CodePoint} (hc : isBare c = false) (r : PyStr) :
    key (k.text ++ c :: r) = some (k.text, c :: r) := by
  obtain ⟨t, ne_nil, bare⟩ := k
  rcases t with - | ⟨a, t⟩
  · exact absurd rfl ne_nil
  · obtain ⟨ha, ht⟩ := List.forall_mem_cons.mp (List.all_eq_true.mp bare)
    have hq : a ≠ ch '"' := by
      rintro rfl
      exact absurd ha (by decide)
    have htake : (t ++ c :: r).takeWhile isBare = t := by
      rw [List.takeWhile_append_of_pos ht, List.takeWhile_cons_of_neg (by simp [hc]),
        List.append_nil]
    have hdrop : (t ++ c :: r).dropWhile isBare = c :: r := by
      rw [List.dropWhile_append_of_pos ht, List.dropWhile_cons_of_neg (by simp [hc])]
    show key (a :: (t ++ c :: r)) = some (a :: t, c :: r)
    rw [key, if_neg hq, if_pos ha, htake, hdrop]

/-- A bare key starts with no white space, no comment and no bracket. -/
theorem BareKey.head (k : BareKey) :
    ∃ a t, k.text = a :: t ∧ isBlank a = false ∧ a ≠ ch '#' ∧ a ≠ ch '[' := by
  obtain ⟨t, ne_nil, bare⟩ := k
  rcases t with - | ⟨a, t⟩
  · exact absurd rfl ne_nil
  · have ha := (List.forall_mem_cons.mp (List.all_eq_true.mp bare)).1
    have hne : ∀ c, isBare c = false → a ≠ c := by
      rintro c hc rfl
      rw [ha] at hc
      exact absurd hc (by decide)
    refine ⟨a, t, rfl, ?_, hne _ (by decide), hne _ (by decide)⟩
    rw [isBlank, Bool.or_eq_false_iff, beq_eq_false_iff_ne, beq_eq_false_iff_ne]
    exact ⟨hne _ (by decide), hne _ (by decide)⟩

theorem value_quote (fuel : ℕ) (s rest : PyStr) :
    value (fuel + 1) (quote s ++ rest) = if Bmp s then some (.str s, rest) else none := by
  have hq : quote s ++ rest = ch '"' :: (escape s ++ ch '"' :: rest) := by simp [quote]
  rw [hq, value, if_pos rfl, basic_escape]
  split_ifs <;> rfl

theorem value_intText (fuel : ℕ) (i : ℤ) : value (fuel + 1) (intText i) = some (.int i, []) := by
  have hdelim : Delim [] := fun c r h => absurd h (by simp)
  have hscan := fun n => scanInt_natText n hdelim
  simp only [List.append_nil] at hscan
  by_cases hi : i < 0
  · have htext : intText i = ch '-' :: natText i.natAbs := by rw [intText, if_pos hi]
    rw [htext, value, if_neg (by decide), if_neg (by decide), integer, if_pos rfl, hscan]
    simp only [Option.map_some, digitsVal_natText]
    congr 3
    omega
  · obtain ⟨c, r, hn, hc, -⟩ := natText_head (n := i.natAbs)
    have hne : ∀ d, isDigit d = false → c ≠ d := by
      rintro d hd rfl
      rw [hc] at hd
      exact absurd hd (by decide)
    have htext : intText i = c :: r := by rw [intText, if_neg hi, hn]
    rw [htext, value, if_neg (hne _ (by decide)), if_neg (hne _ (by decide)), integer,
      if_neg (hne _ (by decide)), if_neg (hne _ (by decide)), ← hn, hscan]
    simp only [Option.map_some, digitsVal_natText]
    congr 3
    omega

/-- The last item of an array of strings. -/
theorem elems_last (fuel : ℕ) (s rest : PyStr) :
    elems (fuel + 2) (quote s ++ ch ']' :: rest) =
      if Bmp s then some ([.str s], rest) else none := by
  have hv := value_quote fuel s (ch ']' :: rest)
  rw [quote, List.cons_append] at hv ⊢
  rw [elems, if_neg (by decide), hv]
  split_ifs <;> rfl

/-- An item with another behind it. -/
theorem elems_next (fuel : ℕ) (s rest : PyStr) :
    elems (fuel + 2) (quote s ++ (py ", " ++ rest)) =
      if Bmp s then (elems (fuel + 1) (skip rest)).map fun q => (.str s :: q.1, q.2) else none := by
  have hv := value_quote fuel s (py ", " ++ rest)
  rw [quote, List.cons_append] at hv ⊢
  rw [elems, if_neg (by decide), hv]
  split_ifs <;> rfl

/-- The items of an array of strings, by induction on those after the first. -/
theorem elems_strs (s : PyStr) (ss : List PyStr) {fuel : ℕ} (h : ss.length + 2 ≤ fuel)
    (rest : PyStr) :
    elems fuel (quote s ++ ((ss.flatMap fun t => py ", " ++ quote t) ++ ch ']' :: rest)) =
      if ∀ t ∈ s :: ss, Bmp t then some ((s :: ss).map .str, rest) else none := by
  induction ss generalizing s fuel with
  | nil =>
      obtain ⟨f, rfl⟩ : ∃ f, fuel = f + 2 := ⟨fuel - 2, by simp only [List.length_nil] at h; omega⟩
      rw [List.flatMap_nil, List.nil_append, elems_last]
      simp only [List.forall_mem_singleton, List.map_cons, List.map_nil]
  | cons t ss ih =>
      rw [List.length_cons] at h
      obtain ⟨f, rfl⟩ : ∃ f, fuel = f + 2 := ⟨fuel - 2, by omega⟩
      rw [List.flatMap_cons, List.append_assoc, List.append_assoc, elems_next, skip_quote,
        ih t (by omega)]
      by_cases hs : Bmp s
      · by_cases ht : ∀ u ∈ t :: ss, Bmp u
        · rw [if_pos hs, if_pos ht, if_pos (List.forall_mem_cons.mpr ⟨hs, ht⟩)]
          rfl
        · rw [if_pos hs, if_neg ht, if_neg fun h' => ht (List.forall_mem_cons.mp h').2]
          rfl
      · rw [if_neg hs, if_neg fun h' => hs (List.forall_mem_cons.mp h').1]

theorem skip_datum (d : Datum) : skip d.text = d.text := by
  rcases d with s | i | - | ⟨s, ss⟩
  · exact skip_cons (by decide) _
  · have hdig : ∀ c, isDigit c = true → isBlank c = false := by
      intro c hc
      rw [isBlank, Bool.or_eq_false_iff, beq_eq_false_iff_ne, beq_eq_false_iff_ne]
      constructor
      · rintro rfl
        exact absurd hc (by decide)
      · rintro rfl
        exact absurd hc (by decide)
    obtain ⟨c, r, hn, hc, -⟩ := natText_head (n := i.natAbs)
    show skip (intText i) = intText i
    unfold intText
    split_ifs
    · exact skip_cons (by decide) _
    · rw [hn]
      exact skip_cons (hdig c hc) _
  · exact skip_cons (by decide) _
  · exact skip_cons (by decide) _

/-- The text of a list is longer than the list, so a line has fuel for its arrays. -/
theorem length_strs (ss : List PyStr) : ss.length + 1 ≤ (Datum.strs ss).text.length := by
  have hitems : ∀ ts : List PyStr, ts.length ≤ (ts.flatMap fun t => py ", " ++ quote t).length := by
    intro ts
    induction ts with
    | nil => exact Nat.zero_le _
    | cons t ts ih =>
        rw [List.flatMap_cons, List.length_append, List.length_append, List.length_cons]
        have : (py ", ").length = 2 := rfl
        omega
  rcases ss with - | ⟨s, ss⟩
  · decide
  · have hq : 2 ≤ (quote s).length := by
      rw [quote, List.length_cons, List.length_append, List.length_singleton]
      omega
    have := hitems ss
    simp only [Datum.text, List.length_cons, List.length_append]
    omega

theorem value_datum (d : Datum) {fuel : ℕ} (h : d.text.length + 2 ≤ fuel) :
    value fuel d.text = if ∀ s ∈ d.strings, Bmp s then some (d.value, []) else none := by
  obtain ⟨f, rfl⟩ : ∃ f, fuel = f + 2 := ⟨fuel - 2, by omega⟩
  rcases d with s | i | ss
  · have hv := value_quote (f + 1) s []
    rw [List.append_nil] at hv
    simpa only [Datum.text, Datum.value, Datum.strings, List.forall_mem_singleton] using hv
  · have hnone : ∀ s ∈ (Datum.int i).strings, Bmp s := fun s h => absurd h List.not_mem_nil
    rw [if_pos hnone]
    exact value_intText (f + 1) i
  · have hlen := length_strs ss
    rcases ss with - | ⟨s, ss⟩
    · have hnone : ∀ s ∈ (Datum.strs []).strings, Bmp s := fun s h => absurd h List.not_mem_nil
      rw [if_pos hnone]
      rfl
    · rw [List.length_cons] at hlen
      have helems := elems_strs s ss (show ss.length + 2 ≤ f + 1 by omega) []
      show value (f + 2) (ch '[' :: _) = _
      rw [value, if_neg (by decide), if_pos rfl, List.append_assoc, skip_quote, helems]
      show Option.map _ (if ∀ t ∈ s :: ss, Bmp t then _ else none) = _
      split_ifs with hb hb' hb'
      · rfl
      · exact absurd hb hb'
      · exact absurd hb' hb
      · rfl

/-- The part of a line behind its key. -/
theorem keyval_datum {s k : PyStr} (d : Datum) (h : key (s ++ py " = " ++ d.text) =
    some (k, py " = " ++ d.text)) :
    keyval (s ++ py " = " ++ d.text) =
      if ∀ t ∈ d.strings, Bmp t then some (.entry k d.value) else none := by
  have hskip : skip (ch ' ' :: d.text) = d.text := by rw [skip_space, skip_datum]
  have hv := value_datum d (show d.text.length + 2 ≤ (ch ' ' :: d.text).length + 1 by simp)
  rw [keyval, h, Option.bind_some]
  show (if ch '=' = ch '=' then (value ((ch ' ' :: d.text).length + 1)
    (skip (ch ' ' :: d.text))).bind _ else none) = _
  rw [if_pos rfl, hskip, hv]
  split_ifs <;> rfl

/-- A line that starts like a key is a key and a value. -/
theorem readLine_key {a : CodePoint} (hblank : isBlank a = false) (hhash : a ≠ ch '#')
    (hbracket : a ≠ ch '[') (t : PyStr) : readLine (a :: t) = keyval (a :: t) := by
  rw [readLine, skip_cons hblank]
  show (if a = ch '#' then _ else if a = ch '[' then _ else _) = _
  rw [if_neg hhash, if_neg hbracket]

theorem skip_bareKey (k : BareKey) (r : PyStr) : skip (k.text ++ r) = k.text ++ r := by
  obtain ⟨a, t, hk, hblank, -, -⟩ := k.head
  rw [hk]
  exact skip_cons hblank _

theorem readLine_field (k : BareKey) (d : Datum) :
    readLine (k.text ++ py " = " ++ d.text) =
      if ∀ s ∈ d.strings, Bmp s then some (.entry k.text d.value) else none := by
  obtain ⟨a, t, hk, hblank, hhash, hbracket⟩ := k.head
  have hkey := key_bare k (c := ch ' ') (by decide) (py "= " ++ d.text)
  rw [← keyval_datum (s := k.text) d (by rw [List.append_assoc]; exact hkey), hk]
  exact readLine_key hblank hhash hbracket _

theorem readLine_entry (k : PyStr) (d : Datum) :
    readLine (quote k ++ py " = " ++ d.text) =
      if ∀ s ∈ k :: d.strings, Bmp s then some (.entry k d.value) else none := by
  have hkey := key_quote k (py " = " ++ d.text)
  have hline : readLine (quote k ++ py " = " ++ d.text) = keyval (quote k ++ py " = " ++ d.text) :=
    readLine_key (by decide) (by decide) (by decide) _
  rw [hline]
  by_cases hk : Bmp k
  · rw [if_pos hk] at hkey
    rw [keyval_datum (s := quote k) d (by rw [List.append_assoc]; exact hkey)]
    by_cases hd : ∀ s ∈ d.strings, Bmp s
    · rw [if_pos hd, if_pos (List.forall_mem_cons.mpr ⟨hk, hd⟩)]
    · rw [if_neg hd, if_neg fun h => hd (List.forall_mem_cons.mp h).2]
  · rw [if_neg hk] at hkey
    rw [if_neg fun h => hk (List.forall_mem_cons.mp h).1, keyval, List.append_assoc, hkey]
    rfl

theorem header_table (k : BareKey) : header (k.text ++ py "]") = some (.table k.text) := by
  obtain ⟨a, t, hk, hblank, -, hbracket⟩ := k.head
  have hkey := key_bare k (c := ch ']') (by decide) []
  have hskip := skip_bareKey k (py "]")
  rw [hk, List.cons_append] at hskip ⊢
  rw [header, if_neg hbracket, hskip, ← List.cons_append, ← hk]
  show (key (k.text ++ ch ']' :: [])).bind _ = _
  rw [hkey]
  rfl

theorem header_element (k : BareKey) :
    header (ch '[' :: (k.text ++ py "]]")) = some (.element k.text) := by
  have hkey := key_bare k (c := ch ']') (by decide) (py "]")
  rw [header, if_pos rfl, skip_bareKey]
  show (key (k.text ++ ch ']' :: py "]")).bind _ = _
  rw [hkey]
  rfl

/-- Every statement is one line, and TOML reads it as the line it stands for exactly when its
strings are TOML strings. -/
theorem readLine_text (st : Statement) :
    readLine st.text = if ∀ s ∈ st.strings, Bmp s then some st.line else none := by
  have hnone : ∀ s ∈ ([] : List PyStr), Bmp s := fun s h => absurd h List.not_mem_nil
  rcases st with ⟨k, d⟩ | ⟨k, d⟩ | k | k
  · exact readLine_field k d
  · exact readLine_entry k d
  · show (header (k.text ++ py "]")).map Line.header = if ∀ s ∈ [], Bmp s then _ else _
    rw [header_table, if_pos hnone]
    rfl
  · show (header (ch '[' :: (k.text ++ py "]]"))).map Line.header = if ∀ s ∈ [], Bmp s then _ else _
    rw [header_element, if_pos hnone]
    rfl

/-! ### Documents of statements -/

/-- `"\n".join(lines) + "\n"`. -/
def joinLines (lines : List PyStr) : PyStr := [ch '\n'].intercalate lines ++ [ch '\n']

theorem printable_bare (k : BareKey) : Printable k.text := by
  intro c hc
  have hb := List.all_eq_true.mp k.bare c hc
  simp only [isBare, isDigit, Bool.or_eq_true, Bool.and_eq_true, decide_eq_true_iff,
    beq_iff_eq] at hb
  rcases hb with (hb | rfl) | rfl
  · omega
  · decide
  · decide

theorem printable_datum (d : Datum) : Printable d.text := by
  rcases d with s | i | - | ⟨s, ss⟩
  · exact printable_quote s
  · exact printable_intText i
  · exact printable_py rfl
  · refine printable_cons.mpr ⟨by decide, printable_append.mpr
      ⟨printable_append.mpr ⟨printable_quote s, ?_⟩, printable_ch (by decide)⟩⟩
    intro c hc
    obtain ⟨t, -, ht⟩ := List.mem_flatMap.mp hc
    exact printable_append.mpr ⟨printable_py rfl, printable_quote t⟩ c ht

theorem printable_text (st : Statement) : Printable st.text := by
  rcases st with ⟨k, d⟩ | ⟨k, d⟩ | k | k
  · exact printable_append.mpr ⟨printable_append.mpr ⟨printable_bare k, printable_py rfl⟩,
      printable_datum d⟩
  · exact printable_append.mpr ⟨printable_append.mpr ⟨printable_quote k, printable_py rfl⟩,
      printable_datum d⟩
  · exact printable_cons.mpr ⟨by decide, printable_append.mpr ⟨printable_bare k, printable_py rfl⟩⟩
  · exact printable_append.mpr ⟨printable_py rfl,
      printable_append.mpr ⟨printable_bare k, printable_py rfl⟩⟩

theorem splitOn_joinLines {lines : List PyStr} (hne : lines ≠ [])
    (h : ∀ l ∈ lines, ch '\n' ∉ l) : (joinLines lines).splitOn (ch '\n') = lines ++ [[]] := by
  induction lines with
  | nil => exact absurd rfl hne
  | cons l lines ih =>
      obtain ⟨hl, hlines⟩ := List.forall_mem_cons.mp h
      rcases lines with - | ⟨m, lines⟩
      · rw [joinLines, List.intercalate_singleton, List.splitOn_append_cons_self_of_not_mem hl]
        rfl
      · have hjoin : joinLines (l :: m :: lines) = l ++ ch '\n' :: joinLines (m :: lines) := by
          simp [joinLines, List.intercalate_cons_cons]
        rw [hjoin, List.splitOn_append_cons_self_of_not_mem hl, ih (by simp) hlines]
        rfl

theorem sections_blank (ls : List Line) : sections (ls ++ [.blank]) = sections ls := by
  induction ls with
  | nil => rfl
  | cons l ls ih => rcases l with - | ⟨k, v⟩ | hd <;> simp [sections, ih]

theorem mapM_readLine (sts : List Statement) :
    (sts.map Statement.text).mapM readLine =
      if ∀ st ∈ sts, ∀ s ∈ st.strings, Bmp s then some (sts.map Statement.line) else none := by
  induction sts with
  | nil => rfl
  | cons st sts ih =>
      rw [List.map_cons, List.mapM_cons, readLine_text, ih]
      by_cases hst : ∀ s ∈ st.strings, Bmp s
      · by_cases hsts : ∀ st ∈ sts, ∀ s ∈ st.strings, Bmp s
        · rw [if_pos hst, if_pos hsts, if_pos (List.forall_mem_cons.mpr ⟨hst, hsts⟩)]
          rfl
        · rw [if_pos hst, if_neg hsts, if_neg fun h => hsts (List.forall_mem_cons.mp h).2]
          rfl
      · rw [if_neg hst, if_neg fun h => hst (List.forall_mem_cons.mp h).1]
        rfl

/-- A document of statements is TOML exactly when all its strings are TOML strings. -/
theorem parse_statements {sts : List Statement} (hne : sts ≠ []) :
    parse (joinLines (sts.map Statement.text)) =
      if ∀ st ∈ sts, ∀ s ∈ st.strings, Bmp s then
        assemble (sections (sts.map Statement.line)).1 (sections (sts.map Statement.line)).2
      else none := by
  have hlines : ∀ l ∈ sts.map Statement.text, ch '\n' ∉ l := by
    intro l hl hn
    obtain ⟨st, -, rfl⟩ := List.mem_map.mp hl
    exact absurd (printable_text st _ hn).1 (by decide)
  rw [parse, splitOn_joinLines (by simpa using hne) hlines, List.mapM_append, mapM_readLine]
  split_ifs
  · show (some (sts.map Statement.line ++ [Line.blank])).bind _ = _
    rw [Option.bind_some, sections_blank]
  · rfl

theorem mem_joinLines {lines : List PyStr} {c : CodePoint} (h : c ∈ joinLines lines) :
    c = ch '\n' ∨ ∃ l ∈ lines, c ∈ l := by
  have hinter : ∀ ls : List PyStr, c ∈ [ch '\n'].intercalate ls →
      c = ch '\n' ∨ ∃ l ∈ ls, c ∈ l := by
    intro ls hc
    induction ls with
    | nil => exact absurd hc List.not_mem_nil
    | cons l ls ih =>
        rcases ls with - | ⟨m, ls⟩
        · exact .inr ⟨l, List.mem_singleton_self l, by simpa using hc⟩
        · rw [List.intercalate_cons_cons, List.append_assoc, List.singleton_append] at hc
          rcases List.mem_append.mp hc with hc | hc
          · exact .inr ⟨l, List.mem_cons_self, hc⟩
          · rcases List.mem_cons.mp hc with hc | hc
            · exact .inl hc
            · exact (ih hc).imp_right fun ⟨n, hn, hcn⟩ => ⟨n, List.mem_cons_of_mem _ hn, hcn⟩
  rcases List.mem_append.mp h with h | h
  · exact hinter lines h
  · exact .inl (List.mem_singleton.mp h)

/-- The text is ASCII, so the bytes of its file are read as they stand. -/
theorem loads_statements (sts : List Statement) :
    loads (encode (joinLines (sts.map Statement.text))) =
      parse (joinLines (sts.map Statement.text)) := by
  have hascii : IsAscii (joinLines (sts.map Statement.text)) := by
    intro c hc
    rcases mem_joinLines hc with rfl | ⟨l, hl, hcl⟩
    · decide
    · obtain ⟨st, -, rfl⟩ := List.mem_map.mp hl
      exact (printable_text st).isAscii c hcl
  rw [loads, decodeUtf8_ascii _ hascii, Option.bind_some]

/-! ### Sections and tables -/

/-- The lines of a document in sections. -/
def linesOf (root : Table) (secs : List (Header × Table)) : List Line :=
  (root.map fun e => .entry e.1 e.2) ++
    secs.flatMap fun s => .header s.1 :: s.2.map fun e => .entry e.1 e.2

theorem sections_entries (t : Table) (ls : List Line) :
    sections ((t.map fun e => .entry e.1 e.2) ++ ls) = (t ++ (sections ls).1, (sections ls).2) := by
  induction t with
  | nil => rfl
  | cons e t ih =>
      obtain ⟨k, v⟩ := e
      rw [List.map_cons, List.cons_append, sections, ih]
      rfl

theorem sections_linesOf (root : Table) (secs : List (Header × Table)) :
    sections (linesOf root secs) = (root, secs) := by
  have hsecs : sections (secs.flatMap fun s => .header s.1 :: s.2.map fun e => .entry e.1 e.2) =
      ([], secs) := by
    induction secs with
    | nil => rfl
    | cons s secs ih =>
        rw [List.flatMap_cons, List.cons_append, sections, sections_entries, ih, List.append_nil]
  rw [linesOf, sections_entries, hsecs, List.append_nil]

/-- Tables of different new names all join the document. -/
theorem foldlM_tables {doc : Document} {ts : List (PyStr × Table)}
    (h : (doc.keys ++ ts.map Prod.fst).Nodup) :
    (ts.map fun t => (Header.table t.1, t.2)).foldlM join doc =
      some (doc ++ ts.map fun t => (t.1, .table t.2)) := by
  induction ts generalizing doc with
  | nil => simp
  | cons t ts ih =>
      obtain ⟨k, t⟩ := t
      have hk : k ∉ doc.keys := by
        intro hmem
        rw [List.nodup_append] at h
        exact h.2.2 k hmem k List.mem_cons_self rfl
      have hset := Dict.set_of_not_mem hk (Node.table t)
      have hkeys : Dict.keys (doc ++ [(k, Node.table t)]) = doc.keys ++ [k] := by simp [Dict.keys]
      rw [List.map_cons, List.foldlM_cons]
      show (join doc (.table k, t)).bind _ = _
      rw [join, if_neg hk, Option.bind_some, hset, ih]
      · simp
      · rw [hkeys, List.append_assoc]
        exact h

/-- An array of tables that is there grows by its further elements. -/
theorem foldlM_elements {doc : Document} {k : PyStr} (hk : k ∉ doc.keys) (us ts : List Table) :
    (ts.map fun t => (Header.element k, t)).foldlM join (doc ++ [(k, .tables us)]) =
      some (doc ++ [(k, .tables (us ++ ts))]) := by
  induction ts generalizing us with
  | nil => simp
  | cons t ts ih =>
      rw [List.map_cons, List.foldlM_cons]
      show (join (doc ++ [(k, Node.tables us)]) (.element k, t)).bind _ = _
      rw [join, Dict.lookup_last hk]
      show Option.bind (some (Dict.set (doc ++ [(k, Node.tables us)]) k _)) _ = _
      rw [Dict.set_last hk, Option.bind_some, ih, List.append_assoc]
      rfl

/-- An array of tables under a new name. -/
theorem foldlM_new_elements {doc : Document} {k : PyStr} (hk : k ∉ doc.keys) (t : Table)
    (ts : List Table) :
    ((t :: ts).map fun t => (Header.element k, t)).foldlM join doc =
      some (doc ++ [(k, .tables (t :: ts))]) := by
  rw [List.map_cons, List.foldlM_cons]
  show (join doc (.element k, t)).bind _ = _
  rw [join, Dict.lookup_of_not_mem hk]
  show Option.bind (some (Dict.set doc k _)) _ = _
  rw [Dict.set_of_not_mem hk, Option.bind_some, foldlM_elements hk]
  rfl

end Py.Toml
