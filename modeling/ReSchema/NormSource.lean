/-
ReSchema/NormSource.lean

The fingerprint of a source text (`domain.py`).

`norm_source` takes comments and white space out of a C text with one regular
expression and keeps literals.  `Lexer` is what the expression is for: a state
machine that reads the text one code point at a time and knows whether it is in
a literal, in a comment, or behind a slash that may begin one.

`normSource_eq` says that the two agree on every text.  So what the fingerprint
does to a piece in the middle of a text is what the machine does to it, from the
state before it (`norm_source_noise`).
-/
import ReSchema.Py.Text
import ReSchema.Py.Regex

namespace ReSchema

open Py

/-! ### The expression -/

/-- `\s`. -/
def isSpace (c : CodePoint) : Bool :=
  (0x09 ≤ c.val && c.val ≤ 0x0d) || (0x1c ≤ c.val && c.val ≤ 0x20) || c.val == 0x85 ||
    c.val == 0xa0 || c.val == 0x1680 || (0x2000 ≤ c.val && c.val ≤ 0x200a) ||
    c.val == 0x2028 || c.val == 0x2029 || c.val == 0x202f || c.val == 0x205f || c.val == 0x3000

/-- One given code point. -/
def just (c : Char) : Regex CodePoint := .one fun d => d == ch c

/-- `.` where it matches a newline too. -/
def dot : Regex CodePoint := .one fun _ => true

/-- `"(?:\\.|[^"\\])*"?`, and the same with the other quote. -/
def literalRe (quote : Char) : Regex CodePoint :=
  .seq (just quote) (.seq
    (.many (.alt (.seq (just '\\') dot) (.one fun c => !(c == ch quote) && !(c == ch '\\'))))
    (.alt (just quote) .eps))

/-- `//[^\n]*`. -/
def lineRe : Regex CodePoint :=
  .seq (just '/') (.seq (just '/') (.many (.one fun c => !(c == ch '\n'))))

/-- `/\*.*?(?:\*/|\Z)`. -/
def blockRe : Regex CodePoint :=
  .seq (just '/') (.seq (just '*') (.seq (.lazy dot) (.alt (.seq (just '*') (just '/')) .atEnd)))

/-- `\s+`. -/
def spaceRe : Regex CodePoint := .seq (.one isSpace) (.many (.one isSpace))

/-- `_NOISE`. -/
def noise : Regex CodePoint :=
  .alt (.group (.alt (literalRe '"') (literalRe '\''))) (.alt lineRe (.alt blockRe spaceRe))

/-- `norm_source(src)`. -/
def normSource (src : PyStr) : PyStr := noise.sub (fun _ m => m.getD []) src

/-! ### The lexer -/

/-- What the lexer is in; `slash` is code behind a slash that may begin a comment. -/
inductive Lexer
  | code
  | slash
  | literal (quote : CodePoint)
  | escape (quote : CodePoint)
  | line
  | block
  | blockStar
  deriving DecidableEq

def isQuote (c : CodePoint) : Bool := c == ch '"' || c == ch '\''

namespace Lexer

/-- The state behind a code point that is read in code. -/
def enter (c : CodePoint) : Lexer :=
  if isQuote c then .literal c else if c = ch '/' then .slash else .code

def next : Lexer → CodePoint → Lexer
  | .code, c => enter c
  | .slash, c => if c = ch '/' then .line else if c = ch '*' then .block else enter c
  | .literal q, c => if c = q then .code else if c = ch '\\' then .escape q else .literal q
  | .escape q, _ => .literal q
  | .line, c => if c = ch '\n' then .code else .line
  | .block, c => if c = ch '*' then .blockStar else .block
  | .blockStar, c => if c = ch '/' then .code else if c = ch '*' then .blockStar else .block

/-- What a code point in code adds; a slash waits. -/
def plain (c : CodePoint) : PyStr := if isSpace c ∨ c = ch '/' then [] else [c]

/-- What a code point adds to the fingerprint. -/
def emit : Lexer → CodePoint → PyStr
  | .code, c => plain c
  | .slash, c => if c = ch '/' ∨ c = ch '*' then [] else ch '/' :: plain c
  | .literal _, c => [c]
  | .escape _, c => [c]
  | .line, _ => []
  | .block, _ => []
  | .blockStar, _ => []

/-- What the end of the text adds. -/
def flush : Lexer → PyStr
  | .slash => [ch '/']
  | _ => []

/-- The state behind a text. -/
def run (q : Lexer) (s : PyStr) : Lexer := s.foldl next q

/-- What a text adds when more may follow. -/
def output : Lexer → PyStr → PyStr
  | _, [] => []
  | q, c :: s => emit q c ++ output (next q c) s

/-- The fingerprint of a text, read from a state. -/
def fingerprint (q : Lexer) (s : PyStr) : PyStr := output q s ++ flush (run q s)

@[simp] theorem run_nil (q : Lexer) : run q [] = q := rfl

@[simp] theorem run_cons (q : Lexer) (c : CodePoint) (s : PyStr) :
    run q (c :: s) = run (next q c) s := rfl

@[simp] theorem run_append (q : Lexer) (s t : PyStr) : run q (s ++ t) = run (run q s) t :=
  List.foldl_append

@[simp] theorem output_nil (q : Lexer) : output q [] = [] := rfl

@[simp] theorem output_cons (q : Lexer) (c : CodePoint) (s : PyStr) :
    output q (c :: s) = emit q c ++ output (next q c) s := rfl

@[simp] theorem output_append (q : Lexer) (s t : PyStr) :
    output q (s ++ t) = output q s ++ output (run q s) t := by
  induction s generalizing q with
  | nil => rfl
  | cons c s ih => rw [List.cons_append, output_cons, output_cons, ih, List.append_assoc]; rfl

/-- A text in two parts. -/
theorem fingerprint_append (q : Lexer) (s t : PyStr) :
    fingerprint q (s ++ t) = output q s ++ fingerprint (run q s) t := by
  rw [fingerprint, fingerprint, output_append, run_append, List.append_assoc]

theorem fingerprint_cons (q : Lexer) (c : CodePoint) (s : PyStr) :
    fingerprint q (c :: s) = emit q c ++ fingerprint (next q c) s := by
  rw [fingerprint, fingerprint, output_cons, run_cons, List.append_assoc]

end Lexer

/-! ### What the expression matches -/

/-- What is left behind a literal whose opening quote has been read. -/
def literalEnd (q : CodePoint) : PyStr → PyStr
  | [] => []
  | [c] => if c = q then [] else if c = ch '\\' then [c] else []
  | c :: d :: r =>
      if c = q then d :: r
      else if c = ch '\\' then literalEnd q r
      else literalEnd q (d :: r)

/-- What is left behind a block comment whose opening has been read. -/
def blockEnd : PyStr → PyStr
  | [] => []
  | [_] => []
  | c :: d :: r => if c = ch '*' ∧ d = ch '/' then r else blockEnd (d :: r)

/-- What is left behind a line comment. -/
def lineEnd (s : PyStr) : PyStr := s.dropWhile fun c => !(c == ch '\n')

/-- The code point begins no literal, no comment and no white space. -/
def IsPlain (c : CodePoint) (r : PyStr) : Prop :=
  isQuote c = false ∧ isSpace c = false ∧
    (c = ch '/' → ∀ d, r.head? = some d → d ≠ ch '/' ∧ d ≠ ch '*')

section Expression

open Regex

theorem ends_just (c d : Char) (s : PyStr) (g : Option PyStr) :
    (just c).ends ⟨ch d :: s, g⟩ = if d = c then [⟨s, g⟩] else [] := by
  rw [just, ends_one_cons]
  by_cases h : d = c
  · simp [h]
  · simp [h, ch_inj]

theorem ends_just_of_ne {c : Char} {d : CodePoint} (h : d ≠ ch c) (s : PyStr) (g : Option PyStr) :
    (just c).ends ⟨d :: s, g⟩ = [] := by
  rw [just, ends_one_cons]
  simp [h]

theorem leads_just (c : Char) (s : PyStr) (g : Option PyStr) :
    Leads (just c) ⟨ch c :: s, g⟩ ⟨s, g⟩ := Leads.one (by simp) s g

/-- The body of a literal and its closing quote. -/
theorem leads_literalEnd {quote : Char} (hq : quote ≠ '\\') (s : PyStr) (g : Option PyStr) :
    Leads (.seq (.many (.alt (.seq (just '\\') dot)
      (.one fun c => !(c == ch quote) && !(c == ch '\\')))) (.alt (just quote) .eps))
      ⟨s, g⟩ ⟨literalEnd (ch quote) s, g⟩ := by
  set body : Regex CodePoint := .alt (.seq (just '\\') dot)
    (.one fun c => !(c == ch quote) && !(c == ch '\\')) with hbody
  have hquote : ∀ r : PyStr, body.ends ⟨ch quote :: r, g⟩ = [] := fun r => by
    refine ends_alt_nil (ends_seq_nil ?_ _) ?_
    · rw [ends_just, if_neg hq]
    · rw [ends_one_cons]
      simp
  have hescape : ∀ (d : CodePoint) (r : PyStr), body.ends ⟨ch '\\' :: d :: r, g⟩ = [⟨r, g⟩] := by
    intro d r
    have hback : (just '\\').ends ⟨ch '\\' :: d :: r, g⟩ = [⟨d :: r, g⟩] := by
      rw [ends_just, if_pos rfl]
    rw [hbody, ends, ends_seq_of hback, ends_one_cons]
    simp [dot, ends_one_cons]
  have hplain : ∀ (c : CodePoint) (r : PyStr), c ≠ ch quote → c ≠ ch '\\' →
      body.ends ⟨c :: r, g⟩ = [⟨r, g⟩] := by
    intro c r hc hc'
    rw [hbody, ends, ends_seq_nil (ends_just_of_ne hc' r g), ends_one_cons]
    simp [hc, hc']
  have hstop : ∀ r : PyStr, body.ends ⟨r, g⟩ = [] →
      Leads (.many body) ⟨r, g⟩ ⟨r, g⟩ := fun r h => Leads.many_stop h
  fun_induction literalEnd (ch quote) s with
  | case1 => exact (hstop [] rfl).seq (Leads.right rfl (.eps _))
  | case2 => exact (hstop _ (hquote [])).seq ((leads_just quote [] g).left _)
  | case3 hne =>
      -- a backslash at the end of the text
      have hback : (just '\\').ends ⟨[ch '\\'], g⟩ = [⟨[], g⟩] := by
        rw [ends_just, if_pos rfl]
      have hnil : body.ends ⟨[ch '\\'], g⟩ = [] := by
        rw [hbody, ends, ends_seq_of hback, ends_one_cons]
        simp [dot, ends_one_nil]
      exact (hstop _ hnil).seq (Leads.right (ends_just_of_ne hne [] g) (.eps _))
  | case4 c hne hne' =>
      refine Leads.seq_many_step (hplain c [] hne hne') (Nat.lt_succ_self _) ?_
      exact (hstop [] rfl).seq (Leads.right rfl (.eps _))
  | case5 d r => exact (hstop _ (hquote _)).seq ((leads_just quote _ g).left _)
  | case6 d r hne ih =>
      exact Leads.seq_many_step (hescape d r) (by simp) ih
  | case7 c d r hne hne' ih =>
      exact Leads.seq_many_step (hplain c _ hne hne') (Nat.lt_succ_self _) ih

/-- The body of a block comment and its end. -/
theorem leads_blockEnd (s : PyStr) (g : Option PyStr) :
    Leads (.seq (.lazy dot) (.alt (.seq (just '*') (just '/')) .atEnd)) ⟨s, g⟩
      ⟨blockEnd s, g⟩ := by
  have hdot : ∀ (c : CodePoint) (r : PyStr), dot.ends ⟨c :: r, g⟩ = [⟨r, g⟩] := fun c r => rfl
  have hend : Leads (.seq (.lazy dot) (.alt (.seq (just '*') (just '/')) .atEnd)) ⟨[], g⟩
      ⟨[], g⟩ := Leads.lazy_stop (Leads.right rfl (Leads.atEnd g))
  fun_induction blockEnd s with
  | case1 => exact hend
  | case2 c =>
      refine Leads.lazy_step (hdot c []) (Nat.lt_succ_self _) ?_ hend
      refine ends_alt_nil ?_ (ends_atEnd_cons c [] g)
      by_cases hc : c = ch '*'
      · subst hc
        rw [ends_seq_of (by rw [ends_just, if_pos rfl])]
        rfl
      · exact ends_seq_nil (ends_just_of_ne hc [] g) _
  | case3 c d r h =>
      obtain ⟨rfl, rfl⟩ := h
      exact Leads.lazy_stop (Leads.left ((leads_just '*' _ g).seq (leads_just '/' r g)) _)
  | case4 c d r h ih =>
      refine Leads.lazy_step (hdot c _) (Nat.lt_succ_self _) ?_ ih
      refine ends_alt_nil ?_ (ends_atEnd_cons c _ g)
      by_cases hc : c = ch '*'
      · subst hc
        rw [ends_seq_of (by rw [ends_just, if_pos rfl])]
        exact ends_just_of_ne (fun hd => h ⟨rfl, hd⟩) r g
      · exact ends_seq_nil (ends_just_of_ne hc _ g) _

theorem literalEnd_suffix (q : CodePoint) (s : PyStr) : literalEnd q s <:+ s := by
  fun_induction literalEnd q s with
  | case1 => exact List.suffix_refl _
  | case2 => exact List.nil_suffix
  | case3 => exact List.suffix_refl _
  | case4 => exact List.nil_suffix
  | case5 d r => exact List.suffix_cons _ _
  | case6 d r _ ih => exact ih.trans ((List.suffix_cons d r).trans (List.suffix_cons _ _))
  | case7 c d r _ _ ih => exact ih.trans (List.suffix_cons c _)

theorem blockEnd_suffix (s : PyStr) : blockEnd s <:+ s := by
  fun_induction blockEnd s with
  | case1 => exact List.suffix_refl _
  | case2 => exact List.nil_suffix
  | case3 c d r _ => exact (List.suffix_cons d r).trans (List.suffix_cons c _)
  | case4 c d r _ ih => exact ih.trans (List.suffix_cons c _)

theorem isQuote_iff {c : CodePoint} : isQuote c = true ↔ c = ch '"' ∨ c = ch '\'' := by
  rw [isQuote, Bool.or_eq_true, beq_iff_eq, beq_iff_eq]

theorem leads_literal {q : CodePoint} (hq : isQuote q = true) (s : PyStr) :
    Leads (.alt (literalRe '"') (literalRe '\'')) ⟨q :: s, none⟩ ⟨literalEnd q s, none⟩ := by
  rcases isQuote_iff.mp hq with rfl | rfl
  · exact Leads.left ((leads_just '"' s none).seq (leads_literalEnd (by decide) s none)) _
  · refine Leads.right (ends_seq_nil ?_ _) ?_
    · rw [ends_just, if_neg (by decide)]
    · exact (leads_just '\'' s none).seq (leads_literalEnd (by decide) s none)

/-- Off a quote no literal begins. -/
theorem ends_literal_nil {c : CodePoint} (hc : isQuote c = false) (s : PyStr) :
    (group (.alt (literalRe '"') (literalRe '\''))).ends ⟨c :: s, none⟩ = [] := by
  have hno : c ≠ ch '"' ∧ c ≠ ch '\'' := by
    rw [← not_or, ← isQuote_iff, hc]
    decide
  exact ends_group_nil (ends_alt_nil (ends_seq_nil (ends_just_of_ne hno.1 s none) _)
    (ends_seq_nil (ends_just_of_ne hno.2 s none) _))

/-! ### The scan of the expression -/

/-- The scan at a literal. -/
theorem scan_literal {q : CodePoint} (hq : isQuote q = true) {t rest : PyStr}
    (h : literalEnd q (t ++ rest) = rest) :
    noise.scan (q :: (t ++ rest)) = .hit (q :: t) (some (q :: t)) :: noise.scan rest := by
  have hleads := leads_literal hq (t ++ rest)
  rw [h] at hleads
  exact scan_hit (t := q :: t) ((Leads.group (t := q :: t) hleads).left _)
    (List.cons_ne_nil q t)

/-- The scan at a line comment. -/
theorem scan_line {t rest : PyStr} (h : lineEnd (t ++ rest) = rest) :
    noise.scan (ch '/' :: ch '/' :: (t ++ rest)) =
      .hit (ch '/' :: ch '/' :: t) none :: noise.scan rest := by
  have hline : Leads lineRe ⟨ch '/' :: ch '/' :: (t ++ rest), none⟩ ⟨rest, none⟩ := by
    have hmany := Leads.many_one (fun c => !(c == ch '\n')) (t ++ rest) none
    rw [← lineEnd, h] at hmany
    exact (leads_just '/' _ none).seq ((leads_just '/' _ none).seq hmany)
  exact scan_hit (t := ch '/' :: ch '/' :: t)
    (Leads.right (ends_literal_nil (by decide) _) (hline.left _)) (List.cons_ne_nil _ _)

/-- The scan at a block comment. -/
theorem scan_block {t rest : PyStr} (h : blockEnd (t ++ rest) = rest) :
    noise.scan (ch '/' :: ch '*' :: (t ++ rest)) =
      .hit (ch '/' :: ch '*' :: t) none :: noise.scan rest := by
  have hline : lineRe.ends ⟨ch '/' :: ch '*' :: (t ++ rest), none⟩ = [] := by
    have hslash : (just '/').ends ⟨ch '/' :: ch '*' :: (t ++ rest), none⟩ =
        [⟨ch '*' :: (t ++ rest), none⟩] := by
      rw [ends_just, if_pos rfl]
    rw [lineRe, ends_seq_of hslash]
    exact ends_seq_nil (by rw [ends_just, if_neg (by decide)]) _
  have hblock : Leads blockRe ⟨ch '/' :: ch '*' :: (t ++ rest), none⟩ ⟨rest, none⟩ := by
    have hend := leads_blockEnd (t ++ rest) none
    rw [h] at hend
    exact (leads_just '/' _ none).seq ((leads_just '*' _ none).seq hend)
  exact scan_hit (t := ch '/' :: ch '*' :: t)
    (Leads.right (ends_literal_nil (by decide) _) (Leads.right hline (hblock.left _)))
    (List.cons_ne_nil _ _)

/-- Off a slash no comment begins. -/
theorem ends_comment_nil {c : CodePoint} (hc : c ≠ ch '/') (s : PyStr) :
    lineRe.ends ⟨c :: s, none⟩ = [] ∧ blockRe.ends ⟨c :: s, none⟩ = [] :=
  ⟨ends_seq_nil (ends_just_of_ne hc s none) _, ends_seq_nil (ends_just_of_ne hc s none) _⟩

theorem not_space_of_quote {c : CodePoint} (h : isQuote c = true) : isSpace c = false := by
  rcases isQuote_iff.mp h with rfl | rfl <;> decide

theorem not_quote_of_space {c : CodePoint} (h : isSpace c = true) : isQuote c = false := by
  rw [Bool.eq_false_iff]
  intro hq
  rw [not_space_of_quote hq] at h
  cases h

theorem ne_slash_of_space {c : CodePoint} (h : isSpace c = true) : c ≠ ch '/' := by
  rintro rfl
  exact absurd h (by decide)

/-- The scan at white space. -/
theorem scan_space {c : CodePoint} (hc : isSpace c = true) {t rest : PyStr}
    (h : (t ++ rest).dropWhile isSpace = rest) :
    noise.scan (c :: (t ++ rest)) = .hit (c :: t) none :: noise.scan rest := by
  have hspace : Leads spaceRe ⟨c :: (t ++ rest), none⟩ ⟨rest, none⟩ := by
    have hmany := Leads.many_one isSpace (t ++ rest) none
    rw [h] at hmany
    exact (Leads.one hc _ none).seq hmany
  obtain ⟨hline, hblock⟩ := ends_comment_nil (ne_slash_of_space hc) (t ++ rest)
  exact scan_hit (t := c :: t) (Leads.right (ends_literal_nil (not_quote_of_space hc) _)
    (Leads.right hline (Leads.right hblock hspace))) (List.cons_ne_nil c t)

/-- The scan elsewhere. -/
theorem scan_isPlain {c : CodePoint} {s : PyStr} (h : IsPlain c s) :
    noise.scan (c :: s) = .plain c :: noise.scan s := by
  obtain ⟨hq, hspace, hslash⟩ := h
  have hcomment : lineRe.ends ⟨c :: s, none⟩ = [] ∧ blockRe.ends ⟨c :: s, none⟩ = [] := by
    by_cases hc : c = ch '/'
    · subst hc
      have hfront : (just '/').ends ⟨ch '/' :: s, none⟩ = [⟨s, none⟩] := by
        rw [ends_just, if_pos rfl]
      rw [lineRe, blockRe, ends_seq_of hfront, ends_seq_of hfront]
      rcases s with - | ⟨d, s⟩
      · exact ⟨ends_seq_nil rfl _, ends_seq_nil rfl _⟩
      · obtain ⟨hd, hd'⟩ := hslash rfl d rfl
        exact ⟨ends_seq_nil (ends_just_of_ne hd s none) _,
          ends_seq_nil (ends_just_of_ne hd' s none) _⟩
    · exact ends_comment_nil hc s
  have hspaces : spaceRe.ends ⟨c :: s, none⟩ = [] := by
    refine ends_seq_nil ?_ _
    rw [ends_one_cons, hspace]
    rfl
  exact scan_plain (ends_alt_nil (ends_literal_nil hq s)
    (ends_alt_nil hcomment.1 (ends_alt_nil hcomment.2 hspaces)))

/-- Induction over the scan. -/
theorem noise_induct {motive : PyStr → Prop} (nil : motive [])
    (literal : ∀ q t rest, isQuote q = true → literalEnd q (t ++ rest) = rest → motive rest →
      motive (q :: (t ++ rest)))
    (line : ∀ t rest, lineEnd (t ++ rest) = rest → motive rest →
      motive (ch '/' :: ch '/' :: (t ++ rest)))
    (block : ∀ t rest, blockEnd (t ++ rest) = rest → motive rest →
      motive (ch '/' :: ch '*' :: (t ++ rest)))
    (space : ∀ c t rest, isSpace c = true → (t ++ rest).dropWhile isSpace = rest → motive rest →
      motive (c :: (t ++ rest)))
    (plain : ∀ c s, IsPlain c s → motive s → motive (c :: s)) (s : PyStr) : motive s := by
  induction hn : s.length using Nat.strong_induction_on generalizing s with
  | _ n ih =>
      rcases s with - | ⟨c, s⟩
      · exact nil
      rw [List.length_cons] at hn
      -- the alternatives of the expression in their order; each leaves a shorter text
      by_cases hq : isQuote c = true
      · obtain ⟨t, ht⟩ := literalEnd_suffix c s
        have hlen := (literalEnd_suffix c s).length_le
        have hrest := ih _ (by omega) (literalEnd c s) rfl
        rw [← ht]
        exact literal c t _ hq (by rw [ht]) hrest
      by_cases hspace : isSpace c = true
      · obtain ⟨t, ht⟩ := List.dropWhile_suffix (l := s) isSpace
        have hlen := (List.dropWhile_suffix (l := s) isSpace).length_le
        have hrest := ih _ (by omega) (s.dropWhile isSpace) rfl
        rw [← ht]
        exact space c t _ hspace (by rw [ht]) hrest
      by_cases hslash : c = ch '/' ∧ ∃ d r, s = d :: r ∧ (d = ch '/' ∨ d = ch '*')
      · obtain ⟨rfl, d, r, rfl, rfl | rfl⟩ := hslash
        · obtain ⟨t, ht⟩ : lineEnd r <:+ r := List.dropWhile_suffix _
          have hlen : (lineEnd r).length ≤ r.length := (List.dropWhile_suffix _).length_le
          have hrest := ih _ (by rw [List.length_cons] at hn; omega) (lineEnd r) rfl
          rw [← ht]
          exact line t _ (by rw [ht]) hrest
        · obtain ⟨t, ht⟩ := blockEnd_suffix r
          have hlen := (blockEnd_suffix r).length_le
          have hrest := ih _ (by rw [List.length_cons] at hn; omega) (blockEnd r) rfl
          rw [← ht]
          exact block t _ (by rw [ht]) hrest
      · -- a slash that begins no comment is a plain code point
        refine plain c s ⟨by simpa using hq, by simpa using hspace, fun hc d hd => ?_⟩
          (ih s.length (by omega) s rfl)
        obtain ⟨r, rfl⟩ := List.head?_eq_some_iff.mp hd
        exact not_or.mp fun h => hslash ⟨hc, d, r, rfl, h⟩

end Expression

/-! ### The lexer on a piece of the scan -/

section Pieces

open Lexer

theorem plain_of_quote {q : CodePoint} (hq : isQuote q = true) : plain q = [q] := by
  rcases isQuote_iff.mp hq with rfl | rfl <;> decide

theorem enter_of_quote {q : CodePoint} (hq : isQuote q = true) : enter q = .literal q := if_pos hq

theorem plain_of_space {c : CodePoint} (hc : isSpace c = true) : plain c = [] := if_pos (.inl hc)

theorem enter_of_space {c : CodePoint} (hc : isSpace c = true) : enter c = .code := by
  rw [enter, not_quote_of_space hc, if_neg Bool.false_ne_true, if_neg (ne_slash_of_space hc)]

/-- The lexer is in a literal that begins with the quote. -/
def Inside (q : CodePoint) (s : Lexer) : Prop := s = .literal q ∨ s = .escape q

theorem forall_prefix_cons {P : PyStr → Prop} {c : CodePoint} {t : PyStr} (hnil : P [])
    (hcons : ∀ x, x <+: t → x ≠ t → P (c :: x)) : ∀ x, x <+: c :: t → x ≠ c :: t → P x := by
  intro x hx hne
  rcases x with - | ⟨d, x⟩
  · exact hnil
  · obtain ⟨rfl, hx'⟩ := List.cons_prefix_cons.mp hx
    exact hcons x hx' fun h => hne (by rw [h])

/-- A literal is kept, and ends in code or, where nothing or one backslash is left, in itself. -/
theorem lexer_literal (q : CodePoint) (s : PyStr) :
    ∃ t, s = t ++ literalEnd q s ∧ output (.literal q) t = t ∧
      (∀ x, x <+: t → x ≠ t → Inside q (run (.literal q) x)) ∧
      (run (.literal q) t = .code ∨ run (.literal q) t = .literal q ∧
        (literalEnd q s = [] ∨ literalEnd q s = [ch '\\'])) := by
  have hnil : ∀ x : PyStr, x <+: [] → x ≠ [] → Inside q (run (.literal q) x) := fun x hx hne =>
    absurd (List.prefix_nil.mp hx) hne
  have hone : ∀ (c : CodePoint) (x : PyStr), x <+: [c] → x ≠ [c] → Inside q (run (.literal q) x) :=
    fun c => forall_prefix_cons (.inl rfl) fun x hx hne => absurd (List.prefix_nil.mp hx) hne
  -- by the scan of the literal: its end, a lone backslash, an escape, or any other code point
  fun_induction literalEnd q s with
  | case1 => exact ⟨[], rfl, rfl, hnil, .inr ⟨rfl, .inl rfl⟩⟩
  | case2 => exact ⟨[q], rfl, rfl, hone q, .inl (if_pos rfl)⟩
  | case3 => exact ⟨[], rfl, rfl, hnil, .inr ⟨rfl, .inr rfl⟩⟩
  | case4 c hne hne' =>
      refine ⟨[c], rfl, rfl, hone c, .inr ⟨?_, .inl rfl⟩⟩
      rw [run_cons, next, if_neg hne, if_neg hne', run_nil]
  | case5 d r => exact ⟨[q], rfl, rfl, hone q, .inl (if_pos rfl)⟩
  | case6 d r hne ih =>
      obtain ⟨t, ht, hout, hin, hrun⟩ := ih
      -- the code point behind a backslash is taken whatever it is, also a quote
      have hnext : next (.literal q) (ch '\\') = .escape q := by
        rw [next, if_neg hne, if_pos rfl]
      refine ⟨ch '\\' :: d :: t, by rw [List.cons_append, List.cons_append, ← ht], ?_, ?_, ?_⟩
      · rw [output_cons, hnext, output_cons]
        show [ch '\\'] ++ ([d] ++ output (.literal q) t) = _
        rw [hout]
        rfl
      · refine forall_prefix_cons (.inl rfl) (forall_prefix_cons ?_ fun x hx hne => ?_)
        · rw [run_cons, hnext]
          exact .inr rfl
        · rw [run_cons, hnext, run_cons]
          exact hin x hx hne
      · rw [run_cons, hnext, run_cons]
        exact hrun
  | case7 c d r hne hne' ih =>
      obtain ⟨t, ht, hout, hin, hrun⟩ := ih
      have hnext : next (.literal q) c = .literal q := by
        rw [next, if_neg hne, if_neg hne']
      refine ⟨c :: t, by rw [List.cons_append, ← ht], ?_, ?_, ?_⟩
      · rw [output_cons, hnext, hout]
        rfl
      · refine forall_prefix_cons (.inl rfl) fun x hx hne => ?_
        rw [run_cons, hnext]
        exact hin x hx hne
      · rwa [run_cons, hnext]

/-- A block comment adds nothing, and ends in code or with the text. -/
theorem lexer_block (s : PyStr) :
    ∃ t, s = t ++ blockEnd s ∧ output .block t = [] ∧
      (run .block t = .code ∨
        blockEnd s = [] ∧ (run .block t = .block ∨ run .block t = .blockStar)) := by
  fun_induction blockEnd s with
  | case1 => exact ⟨[], rfl, rfl, .inr ⟨rfl, .inl rfl⟩⟩
  | case2 c =>
      refine ⟨[c], rfl, rfl, .inr ⟨rfl, ?_⟩⟩
      rw [run_cons, run_nil, next]
      split_ifs
      · exact .inr rfl
      · exact .inl rfl
  | case3 c d r h =>
      obtain ⟨rfl, rfl⟩ := h
      exact ⟨[ch '*', ch '/'], rfl, rfl, .inl rfl⟩
  | case4 c d r h ih =>
      obtain ⟨t, ht, hout, hrun⟩ := ih
      refine ⟨c :: t, by rw [List.cons_append, ← ht], ?_⟩
      by_cases hc : c = ch '*'
      · -- a star without a slash behind it is like any other code point
        obtain ⟨t, rfl⟩ : ∃ t', t = d :: t' := by
          rcases t with - | ⟨e, t⟩
          · rcases hrun with hrun | ⟨hnil, -⟩
            · cases hrun
            · rw [hnil] at ht
              cases ht
          · obtain ⟨rfl, -⟩ := List.cons.inj ht
            exact ⟨t, rfl⟩
        have hd : d ≠ ch '/' := fun hd => h ⟨hc, hd⟩
        have hnext : next .blockStar d = next .block d := if_neg hd
        have hstar : next .block c = .blockStar := if_pos hc
        rw [output_cons, run_cons, hstar, output_cons, run_cons, hnext]
        exact ⟨hout, hrun⟩
      · have hnext : next .block c = .block := if_neg hc
        rw [output_cons, run_cons, hnext]
        exact ⟨hout, hrun⟩

theorem lexer_line {t : PyStr} (h : ∀ c ∈ t, c ≠ ch '\n') :
    output .line t = [] ∧ run .line t = .line := by
  induction t with
  | nil => exact ⟨rfl, rfl⟩
  | cons c t ih =>
      obtain ⟨hc, ht⟩ := List.forall_mem_cons.mp h
      have hnext : next .line c = .line := if_neg hc
      rw [output_cons, run_cons, hnext]
      exact ih ht

theorem lexer_space {t : PyStr} (h : ∀ c ∈ t, isSpace c = true) :
    output .code t = [] ∧ run .code t = .code := by
  induction t with
  | nil => exact ⟨rfl, rfl⟩
  | cons c t ih =>
      obtain ⟨hc, ht⟩ := List.forall_mem_cons.mp h
      have hnext : next .code c = .code := enter_of_space hc
      have hemit : emit .code c = [] := plain_of_space hc
      rw [output_cons, run_cons, hnext, hemit]
      exact ih ht

/-- A slash that begins no comment is code. -/
theorem next_slash {c : CodePoint} (h : c ≠ ch '/' ∧ c ≠ ch '*') :
    next .slash c = next .code c ∧ emit .slash c = ch '/' :: emit .code c := by
  have hnext : next .slash c = enter c := (if_neg h.1).trans (if_neg h.2)
  exact ⟨hnext, if_neg (not_or.mpr h)⟩

theorem fingerprint_slash {s : PyStr} (h : ∀ c, s.head? = some c → c ≠ ch '/' ∧ c ≠ ch '*') :
    fingerprint .slash s = ch '/' :: fingerprint .code s := by
  rcases s with - | ⟨c, s⟩
  · rfl
  · obtain ⟨hnext, hemit⟩ := next_slash (h c rfl)
    rw [fingerprint_cons, fingerprint_cons, hnext, hemit]
    rfl

/-- What is left behind a line comment begins with a newline. -/
theorem head_lineEnd {s : PyStr} {c : CodePoint} (h : (lineEnd s).head? = some c) :
    c = ch '\n' := by
  have := List.head?_dropWhile_not (fun c => !(c == ch '\n')) s
  rw [← lineEnd, h] at this
  simpa using this

theorem forall_of_dropWhile {p : CodePoint → Bool} {t rest : PyStr}
    (h : (t ++ rest).dropWhile p = rest) : ∀ c ∈ t, p c = true := by
  have hsplit := List.takeWhile_append_dropWhile (p := p) (l := t ++ rest)
  rw [h] at hsplit
  rw [← List.append_cancel_right hsplit]
  exact fun c hc => List.mem_takeWhile_imp hc

theorem lexer_of_lineEnd {t rest : PyStr} (h : lineEnd (t ++ rest) = rest) :
    output .line t = [] ∧ run .line t = .line :=
  lexer_line fun c hc => by simpa using forall_of_dropWhile h c hc

theorem normSource_of_scan {s rest t : PyStr} {g : Option PyStr}
    (h : noise.scan s = .hit t g :: noise.scan rest) :
    normSource s = g.getD [] ++ normSource rest := by
  rw [normSource, Regex.sub, h, List.flatMap_cons]
  rfl

/-- **The expression and the lexer agree.** -/
theorem normSource_eq (s : PyStr) : normSource s = fingerprint .code s := by
  induction s using noise_induct with
  | nil => rfl
  | literal q t rest hq h ih =>
      obtain ⟨t', ht, hout, -, hrun⟩ := lexer_literal q (t ++ rest)
      rw [h] at ht hrun
      obtain rfl := List.append_cancel_right ht
      have hnorm : fingerprint (run (.literal q) t) rest = fingerprint .code rest := by
        rcases hrun with hcode | ⟨hlit, rfl | rfl⟩
        · rw [hcode]
        · rw [hlit]
          rfl
        · -- the backslash at the end of an open literal
          have hne : ch '\\' ≠ q := by
            rintro rfl
            exact absurd hq (by decide)
          have hnext : next (.literal q) (ch '\\') = .escape q := (if_neg hne).trans (if_pos rfl)
          rw [hlit, fingerprint_cons, fingerprint_cons, hnext]
          rfl
      rw [normSource_of_scan (scan_literal hq h), ih, fingerprint_cons, fingerprint_append]
      show _ = plain q ++ (output (enter q) t ++ fingerprint (run (enter q) t) rest)
      rw [plain_of_quote hq, enter_of_quote hq, hout, hnorm]
      rfl
  | line t rest h ih =>
      obtain ⟨hout, hrun⟩ := lexer_of_lineEnd h
      have hnorm : fingerprint .line rest = fingerprint .code rest := by
        rcases hrest : rest with - | ⟨c, r⟩
        · rfl
        · obtain rfl := head_lineEnd (s := t ++ rest) (c := c) (by rw [h, hrest]; rfl)
          rfl
      rw [normSource_of_scan (scan_line h), ih, fingerprint_cons, fingerprint_cons,
        fingerprint_append]
      show _ = [] ++ ([] ++ (output .line t ++ fingerprint (run .line t) rest))
      rw [hout, hrun, hnorm]
      rfl
  | block t rest h ih =>
      obtain ⟨t', ht, hout, hrun⟩ := lexer_block (t ++ rest)
      rw [h] at ht hrun
      obtain rfl := List.append_cancel_right ht
      have hnorm : fingerprint (run .block t) rest = fingerprint .code rest := by
        rcases hrun with hcode | ⟨rfl, hblock | hstar⟩
        · rw [hcode]
        · rw [hblock]
          rfl
        · rw [hstar]
          rfl
      rw [normSource_of_scan (scan_block h), ih, fingerprint_cons, fingerprint_cons,
        fingerprint_append]
      show _ = [] ++ ([] ++ (output .block t ++ fingerprint (run .block t) rest))
      rw [hout, hnorm]
      rfl
  | space c t rest hc h ih =>
      obtain ⟨hout, hrun⟩ := lexer_space (forall_of_dropWhile h)
      rw [normSource_of_scan (scan_space hc h), ih, fingerprint_cons, fingerprint_append]
      show _ = plain c ++ (output (enter c) t ++ fingerprint (run (enter c) t) rest)
      rw [plain_of_space hc, enter_of_space hc, hout, hrun]
      rfl
  | plain c s h ih =>
      have hsub : normSource (c :: s) = c :: normSource s := by
        rw [normSource, Regex.sub, scan_isPlain h, List.flatMap_cons]
        rfl
      obtain ⟨hq, hspace, hslash⟩ := h
      rw [hsub, ih, fingerprint_cons]
      by_cases hc : c = ch '/'
      · subst hc
        exact (fingerprint_slash (hslash rfl)).symm
      · have henter : enter c = .code := by
          rw [enter, hq, if_neg Bool.false_ne_true, if_neg hc]
        have hplain : plain c = [c] := if_neg (by rw [hspace]; simp [hc])
        show _ = plain c ++ fingerprint (enter c) s
        rw [henter, hplain]
        rfl

end Pieces

/-! ### The lexer along the scan -/

section Positions

open Lexer Regex

/-- What the lexer can be in between two pieces of the scan, by the text that follows. -/
inductive Between : Lexer → PyStr → Prop
  | code (rest : PyStr) : Between .code rest
  | slash (rest : PyStr) (h : ∀ c, rest.head? = some c → c ≠ ch '/' ∧ c ≠ ch '*') :
      Between .slash rest
  | line (rest : PyStr) (h : ∀ c, rest.head? = some c → c = ch '\n') : Between .line rest
  | open (q : CodePoint) (rest : PyStr) (h : rest = [] ∨ rest = [ch '\\']) :
      Between (.literal q) rest
  | last (s : Lexer) (h : s ≠ .slash) : Between s []

/-- The state in front of a piece. -/
theorem between_of_scan {s : PyStr} {ps qs : List (Piece CodePoint)}
    (h : noise.scan s = ps ++ qs) : Between (run .code (textOf ps)) (textOf qs) := by
  induction s using noise_induct generalizing ps with
  | nil =>
      obtain ⟨rfl, rfl⟩ := List.append_eq_nil_iff.mp h.symm
      exact .code _
  | literal q t rest hq hend ih =>
      rcases ps with - | ⟨p, ps⟩
      · exact .code _
      rw [scan_literal hq hend, List.cons_append] at h
      obtain ⟨rfl, hrest⟩ := List.cons.inj h
      obtain ⟨t', ht, -, -, hrun⟩ := lexer_literal q (t ++ rest)
      rw [hend] at ht hrun
      obtain rfl := List.append_cancel_right ht
      rw [textOf_cons, Piece.text, List.cons_append, run_cons]
      show Between (run (enter q) _) _
      rw [enter_of_quote hq, run_append]
      obtain ⟨htext, -⟩ := scan_textOf hrest
      rcases hrun with hcode | ⟨hlit, rfl | rfl⟩
      · rw [hcode]
        exact ih hrest
      · obtain ⟨hps, hqs⟩ := List.append_eq_nil_iff.mp htext.symm
        rw [hlit, hps, hqs]
        exact .open q [] (.inl rfl)
      · rw [hlit]
        rcases hps : textOf ps with - | ⟨c, x⟩
        · rw [hps] at htext
          exact .open q _ (.inr htext.symm)
        · -- the backslash at the end of an open literal
          rw [hps, List.cons_append] at htext
          obtain ⟨rfl, hx⟩ := List.cons.inj htext
          obtain ⟨rfl, hqs⟩ := List.append_eq_nil_iff.mp hx.symm
          have hne : ch '\\' ≠ q := by
            rintro rfl
            exact absurd hq (by decide)
          have hnext : next (.literal q) (ch '\\') = .escape q := (if_neg hne).trans (if_pos rfl)
          rw [run_cons, hnext, hqs]
          exact .last _ (by simp)
  | line t rest hend ih =>
      rcases ps with - | ⟨p, ps⟩
      · exact .code _
      rw [scan_line hend, List.cons_append] at h
      obtain ⟨rfl, hrest⟩ := List.cons.inj h
      obtain ⟨-, hrun⟩ := lexer_of_lineEnd hend
      have hhead : ∀ c, rest.head? = some c → c = ch '\n' := fun c hc =>
        head_lineEnd (s := t ++ rest) (by rw [hend]; exact hc)
      have hfront : run .code (ch '/' :: ch '/' :: t) = .line := hrun
      obtain ⟨htext, -⟩ := scan_textOf hrest
      rw [textOf_cons, Piece.text, run_append, hfront]
      rcases hps : textOf ps with - | ⟨c, x⟩
      · rw [hps, List.nil_append] at htext
        exact .line _ fun c hc => hhead c (by rw [htext]; exact hc)
      · obtain rfl := hhead c (by rw [htext, hps]; rfl)
        have hih := ih hrest
        rwa [hps] at hih
  | block t rest hend ih =>
      rcases ps with - | ⟨p, ps⟩
      · exact .code _
      rw [scan_block hend, List.cons_append] at h
      obtain ⟨rfl, hrest⟩ := List.cons.inj h
      obtain ⟨t', ht, -, hrun⟩ := lexer_block (t ++ rest)
      rw [hend] at ht hrun
      obtain rfl := List.append_cancel_right ht
      have hfront : run .code (ch '/' :: ch '*' :: t) = run .block t := rfl
      obtain ⟨htext, -⟩ := scan_textOf hrest
      rw [textOf_cons, Piece.text, run_append, hfront]
      rcases hrun with hcode | ⟨rfl, hopen⟩
      · rw [hcode]
        exact ih hrest
      · obtain ⟨hps, hqs⟩ := List.append_eq_nil_iff.mp htext.symm
        rw [hps, hqs, run_nil]
        rcases hopen with hopen | hopen <;> rw [hopen] <;> exact .last _ (by simp)
  | space c t rest hc hend ih =>
      rcases ps with - | ⟨p, ps⟩
      · exact .code _
      rw [scan_space hc hend, List.cons_append] at h
      obtain ⟨rfl, hrest⟩ := List.cons.inj h
      have hspaces : ∀ d ∈ c :: t, isSpace d = true :=
        List.forall_mem_cons.mpr ⟨hc, forall_of_dropWhile hend⟩
      rw [textOf_cons, Piece.text, run_append, (lexer_space hspaces).2]
      exact ih hrest
  | plain c s hplain ih =>
      rcases ps with - | ⟨p, ps⟩
      · exact .code _
      rw [scan_isPlain hplain, List.cons_append] at h
      obtain ⟨rfl, hrest⟩ := List.cons.inj h
      obtain ⟨hq, -, hslash⟩ := hplain
      obtain ⟨htext, -⟩ := scan_textOf hrest
      rw [textOf_cons, Piece.text, List.singleton_append, run_cons]
      show Between (run (enter c) _) _
      by_cases hc : c = ch '/'
      · subst hc
        have hhead := hslash rfl
        rcases hps : textOf ps with - | ⟨d, x⟩
        · rw [hps, List.nil_append] at htext
          exact .slash _ fun d hd => hhead d (by rw [htext]; exact hd)
        · have hih := ih hrest
          rw [hps] at hih
          have hd : d ≠ ch '/' ∧ d ≠ ch '*' := hhead d (by rw [htext, hps]; rfl)
          show Between (run .slash (d :: x)) _
          rwa [run_cons, (next_slash hd).1]
      · rw [enter, hq, if_neg Bool.false_ne_true, if_neg hc]
        exact ih hrest

end Positions

/-! ### Noise and literals -/

section Claims

open Lexer Regex

/-- The scan of the text ends outside any literal and comment. -/
def Outside (u : PyStr) : Prop := run .code u = .code ∨ run .code u = .slash

/-- The first part of the text ends between two pieces of the scan of the whole. -/
def Boundary (u v : PyStr) : Prop :=
  ∃ ps qs, noise.scan (u ++ v) = ps ++ qs ∧ textOf ps = u

/-- White space anywhere, or a complete comment where no slash waits. -/
inductive Noise (u : PyStr) : PyStr → Prop
  | space (c : PyStr) (hc : ∀ x ∈ c, isSpace x = true) : Noise u c
  | line (b : PyStr) (hb : ch '\n' ∉ b) (hu : run .code u ≠ .slash) :
      Noise u (py "//" ++ b ++ [ch '\n'])
  | block (b : PyStr) (hb : ¬ py "*/" <:+: b) (hu : run .code u ≠ .slash) :
      Noise u (py "/*" ++ b ++ py "*/")

/-- `l` is a literal when `v` follows: from the opening quote through the closing one, or to the
end of the text. -/
def IsLiteral (l v : PyStr) : Prop :=
  ∃ q t, isQuote q = true ∧ l = q :: t ∧
    (∀ x, x <+: t → x ≠ t → Inside q (run (.literal q) x)) ∧
    (run (.literal q) t = .code ∨ v = [] ∧ Inside q (run (.literal q) t))

/-- The body of a block comment keeps the lexer in the comment. -/
theorem lexer_body (b : PyStr) :
    (¬ py "*/" <:+: b → output .block b = [] ∧
      (run .block b = .block ∨ run .block b = .blockStar)) ∧
    (¬ py "*/" <:+: ch '*' :: b → output .blockStar b = [] ∧
      (run .blockStar b = .block ∨ run .blockStar b = .blockStar)) := by
  induction b with
  | nil => exact ⟨fun _ => ⟨rfl, .inl rfl⟩, fun _ => ⟨rfl, .inr rfl⟩⟩
  | cons c b ih =>
      -- behind `c` the lexer is in one of the two states, by whether `c` is a star
      have hstep : ¬ py "*/" <:+: c :: b →
          output (if c = ch '*' then .blockStar else .block) b = [] ∧
          (run (if c = ch '*' then .blockStar else .block) b = .block ∨
            run (if c = ch '*' then .blockStar else .block) b = .blockStar) := by
        intro h
        by_cases hc : c = ch '*'
        · subst hc
          exact ih.2 h
        · rw [if_neg hc]
          exact ih.1 fun hb => h (hb.trans (List.suffix_cons c b).isInfix)
      refine ⟨fun h => hstep h, fun h => ?_⟩
      have hc : c ≠ ch '/' := by
        rintro rfl
        exact h (List.IsPrefix.isInfix ⟨b, rfl⟩)
      have hnext : next .blockStar c = if c = ch '*' then .blockStar else .block := if_neg hc
      rw [output_cons, run_cons, hnext]
      exact hstep fun hb => h (hb.trans (List.suffix_cons _ (c :: b)).isInfix)

/-- A complete comment in code adds nothing and ends in code. -/
theorem lexer_comment {u c : PyStr} (hc : Noise u c) :
    output .code c = [] ∧ run .code c = .code := by
  cases hc with
  | space _ hc => exact lexer_space hc
  | line b hb =>
      obtain ⟨hout, hrun⟩ := lexer_line fun x hx hxn => hb (hxn ▸ hx)
      have hfront : output .code (py "//") = [] ∧ run .code (py "//") = .line := ⟨rfl, rfl⟩
      rw [List.append_assoc, output_append, run_append, hfront.1, hfront.2, output_append,
        run_append, hout, hrun]
      exact ⟨rfl, rfl⟩
  | block b hb =>
      obtain ⟨hout, hrun⟩ := (lexer_body b).1 hb
      have hfront : output .code (py "/*") = [] ∧ run .code (py "/*") = .block := ⟨rfl, rfl⟩
      rw [List.append_assoc, output_append, run_append, hfront.1, hfront.2, output_append,
        run_append, hout]
      rcases hrun with hrun | hrun <;> rw [hrun] <;> exact ⟨rfl, rfl⟩

/-- Noise changes nothing. -/
theorem normSource_noise {u c v : PyStr} (hu : Outside u) (hc : Noise u c) (hb : Boundary u v) :
    normSource (u ++ c ++ v) = normSource (u ++ v) := by
  rw [normSource_eq, normSource_eq, List.append_assoc, fingerprint_append, fingerprint_append,
    fingerprint_append]
  rcases hu with hcode | hslash
  · obtain ⟨hout, hrun⟩ := lexer_comment hc
    rw [hcode, hout, hrun, List.nil_append]
  · obtain ⟨ps, qs, hscan, rfl⟩ := hb
    have hv : v = textOf qs := List.append_cancel_left (scan_textOf hscan).1
    have hhead : ∀ d, v.head? = some d → d ≠ ch '/' ∧ d ≠ ch '*' := by
      have hbetween := between_of_scan hscan
      rw [hslash, ← hv] at hbetween
      cases hbetween with
      | slash _ h => exact h
      | last _ h => exact absurd rfl h
    cases hc with
    | space _ hc =>
        rcases c with - | ⟨x, c⟩
        · rw [output_nil, run_nil, List.nil_append]
        · -- white space behind a slash makes it code
          have hx := hc x List.mem_cons_self
          have hxs : x ≠ ch '/' ∧ x ≠ ch '*' := by
            refine ⟨ne_slash_of_space hx, ?_⟩
            rintro rfl
            exact absurd hx (by decide)
          have hspace := lexer_space hc
          have hfront : fingerprint .slash (x :: c ++ v) =
              ch '/' :: fingerprint .code (x :: c ++ v) :=
            fingerprint_slash fun d hd => by
              cases hd
              exact hxs
          rw [hslash, ← fingerprint_append, hfront, fingerprint_append, hspace.1, hspace.2,
            fingerprint_slash hhead]
          rfl
    | line b _ hno => exact absurd hslash hno
    | block b _ hno => exact absurd hslash hno

/-- A match with a group is a literal. -/
theorem scan_group {s t g : PyStr} {qs : List (Piece CodePoint)}
    (h : noise.scan s = .hit t (some g) :: qs) :
    ∃ q t', isQuote q = true ∧ t = q :: t' ∧ literalEnd q (t' ++ textOf qs) = textOf qs := by
  induction s using noise_induct with
  | nil => cases h
  | literal q t' rest hq hend _ =>
      rw [scan_literal hq hend] at h
      obtain ⟨hhit, rfl⟩ := List.cons.inj h
      cases hhit
      exact ⟨q, t', hq, rfl, by rw [textOf_scan, hend]⟩
  | line t' rest hend _ =>
      rw [scan_line hend] at h
      cases (List.cons.inj h).1
  | block t' rest hend _ =>
      rw [scan_block hend] at h
      cases (List.cons.inj h).1
  | space c t' rest hc hend _ =>
      rw [scan_space hc hend] at h
      cases (List.cons.inj h).1
  | plain c s hplain _ =>
      rw [scan_isPlain hplain] at h
      cases (List.cons.inj h).1

/-- The lexer keeps a literal. -/
theorem fingerprint_literal {l v : PyStr} (h : IsLiteral l v) :
    fingerprint .code (l ++ v) = l ++ fingerprint .code v := by
  obtain ⟨q, t, hq, rfl, hin, hend⟩ := h
  have hout : ∀ x : PyStr, x <+: t → output (.literal q) x = x := by
    intro x
    induction x using List.reverseRecOn with
    | nil => exact fun _ => rfl
    | append_singleton x c ih =>
        intro hx
        have hx' : x <+: t := (List.prefix_append x [c]).trans hx
        have hne : x ≠ t := by
          rintro rfl
          have := hx.length_le
          simp at this
        rw [output_append, ih hx']
        rcases hin x hx' hne with hs | hs <;> rw [hs] <;> rfl
  rw [List.cons_append, fingerprint_cons, fingerprint_append]
  show plain q ++ (output (enter q) t ++ fingerprint (run (enter q) t) v) = _
  rw [plain_of_quote hq, enter_of_quote hq, hout t (List.prefix_refl t)]
  rcases hend with hcode | ⟨rfl, hopen⟩
  · rw [hcode]
    rfl
  · rcases hopen with hs | hs <;> rw [hs] <;> rfl

/-- A literal that the scan meets is kept where it is. -/
theorem normSource_literal {s t g : PyStr} {ps qs : List (Piece CodePoint)}
    (h : noise.scan s = ps ++ .hit t (some g) :: qs) :
    ∃ l v, t ++ textOf qs = l ++ v ∧ t <+: l ∧ IsLiteral l v ∧
      normSource s = normSource (textOf ps) ++ l ++ normSource v := by
  obtain ⟨htext, hscan⟩ := scan_textOf h
  obtain ⟨q, t, hq, rfl, hend⟩ := scan_group hscan
  obtain ⟨t', ht, -, hin, hrun⟩ := lexer_literal q (t ++ textOf qs)
  rw [hend] at ht hrun
  obtain rfl := List.append_cancel_right ht
  obtain ⟨l, v, hsplit, hprefix, hlit⟩ : ∃ l v, q :: t ++ textOf qs = l ++ v ∧ q :: t <+: l ∧
      IsLiteral l v := by
    rcases hrun with hcode | ⟨hopen, hnil | hback⟩
    · exact ⟨q :: t, textOf qs, rfl, List.prefix_refl _, q, t, hq, rfl, hin, .inl hcode⟩
    · exact ⟨q :: t, [], by rw [hnil], List.prefix_refl _, q, t, hq, rfl, hin,
        .inr ⟨rfl, .inl hopen⟩⟩
    · -- the backslash at the end of the text belongs to the open literal
      have hne : ch '\\' ≠ q := by
        rintro rfl
        exact absurd hq (by decide)
      have hnext : next (.literal q) (ch '\\') = .escape q := (if_neg hne).trans (if_pos rfl)
      refine ⟨q :: (t ++ [ch '\\']), [], by rw [hback, List.append_nil]; rfl,
        ⟨[ch '\\'], rfl⟩, q, _, hq, rfl, fun x hx hne => ?_, .inr ⟨rfl, .inr ?_⟩⟩
      · rcases List.prefix_concat_iff.mp hx with rfl | hx
        · exact absurd rfl hne
        · by_cases hxt : x = t
          · rw [hxt]
            exact .inl hopen
          · exact hin x hx hxt
      · rw [run_append, hopen, run_cons, hnext, run_nil]
  refine ⟨l, v, hsplit, hprefix, hlit, ?_⟩
  have hbetween := between_of_scan h
  rw [textOf_cons, Piece.text, hsplit] at hbetween
  have hhead : ∀ c, (l ++ v).head? = some c → c ≠ ch '/' ∧ c ≠ ch '*' ∧ c ≠ ch '\n' ∧
      c ≠ ch '\\' := by
    intro c hc
    obtain ⟨q, t, hq, rfl, -⟩ := hlit
    cases hc
    rcases isQuote_iff.mp hq with rfl | rfl <;> decide
  have hne : l ++ v ≠ [] := by
    obtain ⟨q, t, -, rfl, -⟩ := hlit
    exact List.cons_ne_nil _ _
  rw [htext, textOf_cons, Piece.text, hsplit, normSource_eq, normSource_eq, normSource_eq,
    fingerprint_append]
  generalize hrest : l ++ v = rest at hbetween hne hhead
  generalize hstate : run .code (textOf ps) = state at hbetween
  have hcode : fingerprint .code rest = l ++ fingerprint .code v := by
    rw [← hrest, fingerprint_literal hlit]
  have hfront : fingerprint .code (textOf ps) = output .code (textOf ps) ++ flush state := by
    rw [fingerprint, hstate]
  rw [hfront]
  cases hbetween with
  | code =>
      rw [hcode, List.append_assoc, List.append_assoc]
      rfl
  | slash _ hsl =>
      rw [fingerprint_slash hsl, hcode, List.append_assoc, List.append_assoc]
      rfl
  | line _ hline =>
      obtain ⟨c, r, rfl⟩ := List.exists_cons_of_ne_nil hne
      exact absurd (hline c rfl) (hhead c rfl).2.2.1
  | «open» _ _ hopen =>
      rcases hopen with rfl | rfl
      · exact absurd rfl hne
      · exact absurd rfl (hhead _ rfl).2.2.2
  | last _ _ => exact absurd rfl hne

/-- **Noise never changes the fingerprint.**  The expression and the lexer agree on every text;
white space and complete comments between two pieces of the scan change nothing; and every
literal that the scan meets is in the fingerprint as it is, at its place. -/
theorem norm_source_noise :
    (∀ s, normSource s = fingerprint .code s) ∧
    (∀ u c v, Outside u → Noise u c → Boundary u v →
      normSource (u ++ c ++ v) = normSource (u ++ v)) ∧
    ∀ (s t g : PyStr) (ps qs : List (Piece CodePoint)),
      noise.scan s = ps ++ .hit t (some g) :: qs →
      ∃ l v, t ++ textOf qs = l ++ v ∧ t <+: l ∧ IsLiteral l v ∧
        normSource s = normSource (textOf ps) ++ l ++ normSource v :=
  ⟨normSource_eq, fun _ _ _ hu hc hb => normSource_noise hu hc hb,
    fun _ _ _ _ _ h => normSource_literal h⟩

theorem norm_source_noise_comment :
    normSource (py "a" ++ (py "/*" ++ py "x" ++ py "*/") ++ py "b") =
      normSource (py "a" ++ py "b") :=
  norm_source_noise.2.1 _ _ _ (.inl (by decide)) (.block (py "x") (by decide) (by decide))
    ⟨[.plain (ch 'a')], [.plain (ch 'b')], rfl, rfl⟩

example : normSource (py "char c='/'; /* unterminated") = py "charc='/';" := by decide +kernel

end Claims

end ReSchema
