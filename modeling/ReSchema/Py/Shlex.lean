/-
ReSchema/Py/Shlex.lean

`shlex.join` and `shlex.split`.

`quote` leaves a word of safe characters as it is, and puts any other one between
single quotes, with each single quote of its own between double quotes.  `split`
is the reader of the library in its POSIX mode, as one function over its states.

`shellSplit_blanks`: the words that were joined are read back, whatever is in
them, also behind blanks.
-/
import ReSchema.Py.Text

namespace Py

/-! ### Writing -/

/-- The characters that need no quotes: letters, digits and these signs. -/
def isShellSafe (c : CodePoint) : Bool :=
  (0x41 ≤ c.val && c.val ≤ 0x5a) || (0x61 ≤ c.val && c.val ≤ 0x7a) || isDigit c ||
    c ∈ ['_', '@', '%', '+', '=', ':', ',', '.', '-', '/'].map ch

/-- `s.replace("'", "'\"'\"'")`. -/
def escapeQuotes (s : PyStr) : PyStr :=
  s.flatMap fun c => if c = ch '\'' then py "'\"'\"'" else [c]

/-- `shlex.quote(s)`. -/
def shellQuote (s : PyStr) : PyStr :=
  if s = [] then py "''"
  else if s.all isShellSafe then s
  else ch '\'' :: (escapeQuotes s ++ [ch '\''])

/-- `shlex.join(words)`. -/
def shellJoin : List PyStr → PyStr
  | [] => []
  | [w] => shellQuote w
  | w :: words => shellQuote w ++ ch ' ' :: shellJoin words

/-! ### Reading -/

/-- `shlex.whitespace`. -/
def isShellBlank (c : CodePoint) : Bool := c ∈ [' ', '\t', '\r', '\n'].map ch

/-- The states of the reader: between words, in a word, between quotes, and behind a backslash
in a word or between double quotes. -/
inductive ShellState
  | blank
  | word
  | single
  | double
  | escapeWord
  | escapeDouble

/-- `shlex.split(s)`, from a state and with the word so far; `none` for a `ValueError`. -/
def shellRead : ShellState → PyStr → PyStr → Option (List PyStr)
  | .blank, _, [] => some []
  | .blank, _, c :: s =>
      if isShellBlank c then shellRead .blank [] s
      else if c = ch '\\' then shellRead .escapeWord [] s
      else if c = ch '\'' then shellRead .single [] s
      else if c = ch '"' then shellRead .double [] s
      else shellRead .word [c] s
  | .word, w, [] => some [w]
  | .word, w, c :: s =>
      if isShellBlank c then (shellRead .blank [] s).map (w :: ·)
      else if c = ch '\'' then shellRead .single w s
      else if c = ch '"' then shellRead .double w s
      else if c = ch '\\' then shellRead .escapeWord w s
      else shellRead .word (w ++ [c]) s
  | .single, _, [] => none
  | .single, w, c :: s =>
      if c = ch '\'' then shellRead .word w s else shellRead .single (w ++ [c]) s
  | .double, _, [] => none
  | .double, w, c :: s =>
      if c = ch '"' then shellRead .word w s
      else if c = ch '\\' then shellRead .escapeDouble w s
      else shellRead .double (w ++ [c]) s
  | .escapeWord, _, [] => none
  | .escapeWord, w, c :: s => shellRead .word (w ++ [c]) s
  | .escapeDouble, _, [] => none
  | .escapeDouble, w, c :: s =>
      if c = ch '\\' ∨ c = ch '"' then shellRead .double (w ++ [c]) s
      else shellRead .double (w ++ [ch '\\', c]) s

/-- `shlex.split(s)`. -/
def shellSplit (s : PyStr) : Option (List PyStr) := shellRead .blank [] s

/-! ### What was written is read -/

/-- The characters that the reader looks for are not safe. -/
theorem not_shellSafe :
    ([' ', '\t', '\r', '\n', '\\', '\'', '"'].map ch).all (!isShellSafe ·) = true := by
  decide

theorem isShellSafe_iff {c : CodePoint} (h : isShellSafe c = true) : isShellBlank c = false ∧
    c ≠ ch '\\' ∧ c ≠ ch '\'' ∧ c ≠ ch '"' := by
  have hnot : ∀ d ∈ [' ', '\t', '\r', '\n', '\\', '\'', '"'].map ch, c ≠ d := by
    rintro d hd rfl
    have hd' := List.all_eq_true.mp not_shellSafe c hd
    rw [h] at hd'
    cases hd'
  refine ⟨decide_eq_false fun hc => ?_, hnot _ (by decide), hnot _ (by decide), hnot _ (by decide)⟩
  exact hnot c (List.mem_append_left (['\\', '\'', '"'].map ch) hc) rfl

theorem shellRead_safe {s : PyStr} (h : s.all isShellSafe = true) (w rest : PyStr) :
    shellRead .word w (s ++ rest) = shellRead .word (w ++ s) rest := by
  induction s generalizing w with
  | nil => rw [List.append_nil, List.nil_append]
  | cons c s ih =>
      obtain ⟨hc, hs⟩ := (Bool.and_eq_true _ _).mp (List.all_cons.symm.trans h)
      obtain ⟨hblank, hback, hsingle, hdouble⟩ := isShellSafe_iff hc
      rw [List.cons_append, shellRead, hblank, if_neg Bool.false_ne_true, if_neg hsingle,
        if_neg hdouble, if_neg hback, ih hs, List.append_assoc]
      rfl

/-- Between single quotes, a quote of the word closes them, comes between double quotes, and opens
them again. -/
theorem shellRead_escapeQuotes (s w rest : PyStr) :
    shellRead .single w (escapeQuotes s ++ ch '\'' :: rest) = shellRead .word (w ++ s) rest := by
  induction s generalizing w with
  | nil =>
      rw [List.append_nil]
      rfl
  | cons c s ih =>
      have hcons : escapeQuotes (c :: s) = (if c = ch '\'' then py "'\"'\"'" else [c]) ++
        escapeQuotes s := rfl
      rw [hcons, List.append_assoc]
      by_cases hc : c = ch '\''
      · rw [if_pos hc, hc]
        show shellRead .single (w ++ [ch '\'']) (escapeQuotes s ++ ch '\'' :: rest) = _
        rw [ih, List.append_assoc]
        rfl
      · rw [if_neg hc, List.singleton_append, shellRead, if_neg hc, ih, List.append_assoc]
        rfl

/-- **A quoted word is read whole**, whatever comes behind it. -/
theorem shellRead_quote (s rest : PyStr) :
    shellRead .blank [] (shellQuote s ++ rest) = shellRead .word s rest := by
  unfold shellQuote
  split_ifs with hempty hsafe
  · rw [hempty]
    rfl
  · rcases s with - | ⟨c, s⟩
    · exact absurd rfl hempty
    · obtain ⟨hc, hs⟩ := (Bool.and_eq_true _ _).mp (List.all_cons.symm.trans hsafe)
      obtain ⟨hblank, hback, hsingle, hdouble⟩ := isShellSafe_iff hc
      rw [List.cons_append, shellRead, hblank, if_neg Bool.false_ne_true, if_neg hback,
        if_neg hsingle, if_neg hdouble, shellRead_safe hs]
      rfl
  · have hopen : ∀ t, shellRead .blank [] (ch '\'' :: t) = shellRead .single [] t := fun _ => rfl
    rw [List.cons_append, hopen, List.append_assoc]
    exact shellRead_escapeQuotes s [] rest

theorem shellSplit_join (words : List PyStr) : shellSplit (shellJoin words) = some words := by
  induction words with
  | nil => rfl
  | cons w words ih =>
      rcases words with - | ⟨w', words⟩
      · have hone := shellRead_quote w []
        rw [List.append_nil] at hone
        exact hone
      · rw [shellSplit, shellJoin, shellRead_quote]
        · show (shellRead .blank [] (shellJoin (w' :: words))).map _ = _
          rw [show shellRead .blank [] _ = _ from ih]
          rfl
        · rintro ⟨⟩

/-- **The words that were joined are read back**, also behind blanks. -/
theorem shellSplit_blanks {blanks : PyStr} (h : blanks.all isShellBlank = true)
    (words : List PyStr) : shellSplit (blanks ++ shellJoin words) = some words := by
  induction blanks with
  | nil => exact shellSplit_join words
  | cons c blanks ih =>
      obtain ⟨hc, hs⟩ := (Bool.and_eq_true _ _).mp (List.all_cons.symm.trans h)
      rw [List.cons_append, shellSplit, shellRead, if_pos hc]
      exact ih hs

end Py
