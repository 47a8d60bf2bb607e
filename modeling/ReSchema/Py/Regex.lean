/-
ReSchema/Py/Regex.lean

Regular expressions as the module `re` matches them.

The engine tries the ways to match at a position in a fixed order and takes the
first that succeeds.  `Regex.ends` lists them in that order, each by what it
leaves of the text: an alternation tries its left side first, a repetition goes
on as long as it can, a lazy one stops as soon as it can.  `Leads` says what the
first of them is, with one rule for each operator.

`Regex.scan` is the scan of `sub` from left to right: it cuts the text into
matches and the items between them.  A match of the empty text counts as none;
the expressions here have no such match.
-/
import Mathlib.Data.List.Basic

namespace Py

/-- A regular expression over the items of a text. -/
inductive Regex (α : Type)
  | eps
  | one (p : α → Bool)
  | atEnd
  | seq (r s : Regex α)
  | alt (r s : Regex α)
  | many (r : Regex α)
  | lazy (r : Regex α)
  | group (r : Regex α)

/-- What a way to match leaves: the rest of the text, and what the group has matched. -/
structure Rest (α : Type) where
  text : List α
  group : Option (List α)

namespace Regex

variable {α : Type}

/-- A repetition of `step`.  Only rounds that take something are repeated, so the length of the
text is fuel enough. -/
def rounds (step : Rest α → List (Rest α)) (stopFirst : Bool) : ℕ → Rest α → List (Rest α)
  | 0, m => [m]
  | n + 1, m =>
      let more := ((step m).filter fun m' => m'.text.length < m.text.length).flatMap
        (rounds step stopFirst n)
      if stopFirst then m :: more else more ++ [m]

/-- All ways to match, in the order in which they are tried. -/
def ends : Regex α → Rest α → List (Rest α)
  | .eps, m => [m]
  | .one _, ⟨[], _⟩ => []
  | .one p, ⟨a :: s, g⟩ => if p a then [⟨s, g⟩] else []
  | .atEnd, m => if m.text.isEmpty then [m] else []
  | .seq r s, m => (r.ends m).flatMap s.ends
  | .alt r s, m => r.ends m ++ s.ends m
  | .many r, m => rounds r.ends false m.text.length m
  | .lazy r, m => rounds r.ends true m.text.length m
  | .group r, m => (r.ends m).map fun m' =>
      { m' with group := some (m.text.take (m.text.length - m'.text.length)) }

section Operators

variable (r s : Regex α) (m : Rest α)

theorem ends_seq : (seq r s).ends m = (r.ends m).flatMap s.ends := rfl

theorem ends_alt : (alt r s).ends m = r.ends m ++ s.ends m := rfl

theorem ends_many : (many r).ends m = rounds r.ends false m.text.length m := rfl

theorem ends_lazy : (lazy r).ends m = rounds r.ends true m.text.length m := rfl

theorem ends_group : (group r).ends m = (r.ends m).map fun m' =>
    { m' with group := some (m.text.take (m.text.length - m'.text.length)) } := rfl

end Operators

theorem ends_one_nil (p : α → Bool) (g : Option (List α)) : (one p).ends ⟨[], g⟩ = [] := rfl

theorem ends_one_cons (p : α → Bool) (a : α) (s : List α) (g : Option (List α)) :
    (one p).ends ⟨a :: s, g⟩ = if p a then [⟨s, g⟩] else [] := rfl

theorem ends_atEnd (m : Rest α) :
    (atEnd : Regex α).ends m = if m.text.isEmpty then [m] else [] := rfl

theorem ends_atEnd_cons (a : α) (s : List α) (g : Option (List α)) :
    (atEnd : Regex α).ends ⟨a :: s, g⟩ = [] := rfl

/-- The way that the engine takes, if there is one. -/
def first (r : Regex α) (s : List α) : Option (Rest α) := (r.ends ⟨s, none⟩).head?

/-! ### Rules for the first way -/

/-- The first way to match from `m` leaves `m'`. -/
def Leads (r : Regex α) (m m' : Rest α) : Prop := (r.ends m).head? = some m'

theorem Leads.eps (m : Rest α) : Leads .eps m m := rfl

theorem Leads.one {p : α → Bool} {a : α} (h : p a = true) (s : List α) (g : Option (List α)) :
    Leads (.one p) ⟨a :: s, g⟩ ⟨s, g⟩ := by
  rw [Leads, ends_one_cons, if_pos h]
  rfl

theorem Leads.atEnd (g : Option (List α)) : Leads .atEnd ⟨[], g⟩ ⟨[], g⟩ := rfl

theorem Leads.seq {r s : Regex α} {m m' m'' : Rest α} (h : Leads r m m') (h' : Leads s m' m'') :
    Leads (.seq r s) m m'' := by
  obtain ⟨ms, hms⟩ := List.head?_eq_some_iff.mp h
  obtain ⟨ns, hns⟩ := List.head?_eq_some_iff.mp h'
  rw [Leads, ends_seq, hms, List.flatMap_cons, hns]
  rfl

theorem ends_seq_nil {r : Regex α} {m : Rest α} (h : r.ends m = []) (s : Regex α) :
    (seq r s).ends m = [] := by
  rw [ends_seq, h]
  rfl

theorem ends_seq_of {r : Regex α} {m m' : Rest α} (h : r.ends m = [m']) (s : Regex α) :
    (seq r s).ends m = s.ends m' := by
  rw [ends_seq, h, List.flatMap_cons, List.flatMap_nil, List.append_nil]

theorem Leads.left {r : Regex α} {m m' : Rest α} (h : Leads r m m') (s : Regex α) :
    Leads (.alt r s) m m' := by
  rw [Leads, ends_alt, List.head?_append, h]
  rfl

theorem Leads.right {r s : Regex α} {m m' : Rest α} (h : r.ends m = []) (h' : Leads s m m') :
    Leads (.alt r s) m m' := by
  rw [Leads, ends_alt, h]
  exact h'

theorem ends_alt_nil {r s : Regex α} {m : Rest α} (h : r.ends m = []) (h' : s.ends m = []) :
    (alt r s).ends m = [] := by
  rw [ends_alt, h, h']
  rfl

theorem Leads.group {r : Regex α} {t rest : List α} {g g' : Option (List α)}
    (h : Leads r ⟨t ++ rest, g⟩ ⟨rest, g'⟩) : Leads (.group r) ⟨t ++ rest, g⟩ ⟨rest, some t⟩ := by
  have htake : (t ++ rest).take ((t ++ rest).length - rest.length) = t := by simp
  rw [Leads, ends_group, List.head?_map, h, Option.map_some, htake]

theorem ends_group_nil {r : Regex α} {m : Rest α} (h : r.ends m = []) :
    (group r).ends m = [] := by
  rw [ends_group, h]
  rfl

/-! ### Repetitions -/

theorem rounds_fuel {step : Rest α → List (Rest α)} (stopFirst : Bool) {n k : ℕ} {m : Rest α}
    (hn : m.text.length ≤ n) (hk : m.text.length ≤ k) :
    rounds step stopFirst n m = rounds step stopFirst k m := by
  have empty : ∀ (j : ℕ) (m : Rest α), m.text.length = 0 → rounds step stopFirst j m = [m] := by
    intro j m hm
    cases j with
    | zero => rfl
    | succ j => cases stopFirst <;> simp [rounds, hm]
  induction n generalizing k m with
  | zero => rw [empty 0 m (by omega), empty k m (by omega)]
  | succ n ih =>
      cases k with
      | zero => rw [empty 0 m (by omega), empty (n + 1) m (by omega)]
      | succ k =>
          have hmore : ((step m).filter fun m' => m'.text.length < m.text.length).flatMap
                (rounds step stopFirst n) =
              ((step m).filter fun m' => m'.text.length < m.text.length).flatMap
                (rounds step stopFirst k) := by
            apply List.flatMap_congr
            intro m' hm'
            have hlt := (List.mem_filter.mp hm').2
            rw [decide_eq_true_eq] at hlt
            exact ih (by omega) (by omega)
          rw [rounds, rounds, hmore]

/-- A round more. -/
theorem ends_many_of {r : Regex α} {m m' : Rest α} (h : r.ends m = [m'])
    (hlt : m'.text.length < m.text.length) : (many r).ends m = (many r).ends m' ++ [m] := by
  obtain ⟨n, hn⟩ : ∃ n, m.text.length = n + 1 := ⟨m.text.length - 1, by omega⟩
  rw [ends_many, ends_many, hn, rounds, h]
  simp only [List.filter_cons, hlt, decide_true, if_true, List.filter_nil, List.flatMap_cons,
    List.flatMap_nil, List.append_nil, Bool.false_eq_true, if_false]
  rw [rounds_fuel false (by omega) (Nat.le_refl _)]

theorem ends_many_nil {r : Regex α} {m : Rest α} (h : r.ends m = []) : (many r).ends m = [m] := by
  rw [ends_many]
  cases m.text.length with
  | zero => rfl
  | succ n => simp [rounds, h]

theorem Leads.many_step {r : Regex α} {m m' m'' : Rest α} (h : r.ends m = [m'])
    (hlt : m'.text.length < m.text.length) (h' : Leads (.many r) m' m'') :
    Leads (.many r) m m'' := by
  rw [Leads, ends_many_of h hlt, List.head?_append, h']
  rfl

theorem Leads.many_stop {r : Regex α} {m : Rest α} (h : r.ends m = []) : Leads (.many r) m m := by
  rw [Leads, ends_many_nil h]
  rfl

/-- A repetition takes a round more where it can, whatever follows. -/
theorem Leads.seq_many_step {r s : Regex α} {m m' m'' : Rest α} (h : r.ends m = [m'])
    (hlt : m'.text.length < m.text.length) (h' : Leads (.seq (.many r) s) m' m'') :
    Leads (.seq (.many r) s) m m'' := by
  rw [Leads, ends_seq] at h' ⊢
  rw [ends_many_of h hlt, List.flatMap_append, List.head?_append, h']
  rfl

/-- A repetition of a class takes the longest run. -/
theorem Leads.many_one (p : α → Bool) (s : List α) (g : Option (List α)) :
    Leads (.many (.one p)) ⟨s, g⟩ ⟨s.dropWhile p, g⟩ := by
  induction s with
  | nil => exact many_stop rfl
  | cons a s ih =>
      by_cases h : p a = true
      · rw [List.dropWhile_cons_of_pos h]
        exact many_step (by rw [ends_one_cons, if_pos h]) (Nat.lt_succ_self _) ih
      · rw [List.dropWhile_cons_of_neg h]
        exact many_stop (by rw [ends_one_cons, if_neg h])

theorem ends_lazy_of {r : Regex α} {m m' : Rest α} (h : r.ends m = [m'])
    (hlt : m'.text.length < m.text.length) : (lazy r).ends m = m :: (lazy r).ends m' := by
  obtain ⟨n, hn⟩ : ∃ n, m.text.length = n + 1 := ⟨m.text.length - 1, by omega⟩
  rw [ends_lazy, ends_lazy, hn, rounds, h]
  simp only [List.filter_cons, hlt, decide_true, if_true, List.filter_nil, List.flatMap_cons,
    List.flatMap_nil, List.append_nil]
  rw [rounds_fuel true (by omega) (Nat.le_refl _)]

/-- A lazy repetition stops where the rest matches. -/
theorem Leads.lazy_stop {r s : Regex α} {m m' : Rest α} (h : Leads s m m') :
    Leads (.seq (.lazy r) s) m m' := by
  have hhead : ∃ ms, (lazy r).ends m = m :: ms := by
    rw [ends_lazy]
    cases m.text.length with
    | zero => exact ⟨[], rfl⟩
    | succ n => exact ⟨_, rfl⟩
  obtain ⟨ms, hms⟩ := hhead
  exact Leads.seq (by rw [Leads, hms]; rfl) h

/-- A lazy repetition goes on where the rest does not match. -/
theorem Leads.lazy_step {r s : Regex α} {m m' m'' : Rest α} (h : r.ends m = [m'])
    (hlt : m'.text.length < m.text.length) (hs : s.ends m = [])
    (h' : Leads (.seq (.lazy r) s) m' m'') : Leads (.seq (.lazy r) s) m m'' := by
  rw [Leads, ends_seq] at h' ⊢
  rwa [ends_lazy_of h hlt, List.flatMap_cons, hs, List.nil_append]

/-! ### What is left -/

theorem rounds_suffix {step : Rest α → List (Rest α)} {stopFirst : Bool}
    (hstep : ∀ m, ∀ m' ∈ step m, m'.text <:+ m.text) (n : ℕ) (m : Rest α) :
    ∀ m' ∈ rounds step stopFirst n m, m'.text <:+ m.text := by
  induction n generalizing m with
  | zero => exact fun m' hm' => List.mem_singleton.mp hm' ▸ List.suffix_refl _
  | succ n ih =>
      intro m' hm'
      have hcases : m' = m ∨ m' ∈ ((step m).filter fun m' =>
          m'.text.length < m.text.length).flatMap (rounds step stopFirst n) := by
        cases stopFirst
        · rw [rounds, if_neg Bool.false_ne_true] at hm'
          rcases List.mem_append.mp hm' with h | h
          · exact .inr h
          · exact .inl (List.mem_singleton.mp h)
        · rw [rounds, if_pos rfl] at hm'
          exact List.mem_cons.mp hm'
      rcases hcases with rfl | h
      · exact List.suffix_refl _
      · obtain ⟨m₁, hm₁, h⟩ := List.mem_flatMap.mp h
        exact (ih m₁ m' h).trans (hstep m m₁ (List.mem_filter.mp hm₁).1)

/-- Every way to match leaves an end of the text. -/
theorem ends_suffix (r : Regex α) : ∀ m, ∀ m' ∈ r.ends m, m'.text <:+ m.text := by
  -- on the expression; what its last part leaves is an end of what the parts before it left
  induction r with
  | eps => exact fun m m' h => List.mem_singleton.mp h ▸ List.suffix_refl _
  | one p =>
      rintro ⟨- | ⟨a, s⟩, g⟩ m' h
      · cases h
      · rw [ends_one_cons] at h
        split_ifs at h
        · rw [List.mem_singleton.mp h]
          exact List.suffix_cons a s
        · cases h
  | atEnd =>
      intro m m' h
      rw [ends_atEnd] at h
      split_ifs at h
      · exact List.mem_singleton.mp h ▸ List.suffix_refl _
      · cases h
  | seq r s ihr ihs =>
      intro m m' h
      obtain ⟨m₁, hm₁, h⟩ := List.mem_flatMap.mp h
      exact (ihs m₁ m' h).trans (ihr m m₁ hm₁)
  | alt r s ihr ihs =>
      intro m m' h
      rcases List.mem_append.mp h with h | h
      · exact ihr m m' h
      · exact ihs m m' h
  | many r ih => exact fun m => rounds_suffix ih _ m
  | lazy r ih => exact fun m => rounds_suffix ih _ m
  | group r ih =>
      intro m m' h
      obtain ⟨m₁, hm₁, rfl⟩ := List.mem_map.mp h
      exact ih m m₁ hm₁

/-! ### The scan -/

/-- What the scan cuts out of the text: an item, or a match with its group. -/
inductive Piece (α : Type)
  | plain (a : α)
  | hit (text : List α) (group : Option (List α))

def Piece.text : Piece α → List α
  | .plain a => [a]
  | .hit t _ => t

/-- The text of some pieces. -/
def textOf (ps : List (Piece α)) : List α := ps.flatMap Piece.text

@[simp] theorem textOf_nil : textOf ([] : List (Piece α)) = [] := rfl

@[simp] theorem textOf_cons (p : Piece α) (ps : List (Piece α)) :
    textOf (p :: ps) = p.text ++ textOf ps := rfl

@[simp] theorem textOf_append (ps qs : List (Piece α)) :
    textOf (ps ++ qs) = textOf ps ++ textOf qs := List.flatMap_append

def scanWith (r : Regex α) : ℕ → List α → List (Piece α)
  | 0, _ => []
  | _ + 1, [] => []
  | n + 1, a :: s =>
      match r.first (a :: s) with
      | none => .plain a :: scanWith r n s
      | some m =>
          if m.text.length ≤ s.length then
            .hit ((a :: s).take (s.length + 1 - m.text.length)) m.group :: scanWith r n m.text
          else .plain a :: scanWith r n s

/-- The scan from left to right; every step takes at least one item. -/
def scan (r : Regex α) (s : List α) : List (Piece α) := scanWith r s.length s

/-- `r.sub(repl, s)`. -/
def sub (r : Regex α) (repl : List α → Option (List α) → List α) (s : List α) : List α :=
  (scan r s).flatMap fun
    | .plain a => [a]
    | .hit t g => repl t g

theorem scanWith_fuel (r : Regex α) {n k : ℕ} {s : List α} (hn : s.length ≤ n)
    (hk : s.length ≤ k) : scanWith r n s = scanWith r k s := by
  induction n generalizing k s with
  | zero =>
      obtain rfl : s = [] := List.length_eq_zero_iff.mp (by omega)
      cases k <;> rfl
  | succ n ih =>
      rcases s with - | ⟨a, s⟩
      · cases k <;> rfl
      rw [List.length_cons] at hn hk
      obtain ⟨k, rfl⟩ : ∃ k', k = k' + 1 := ⟨k - 1, by omega⟩
      have hplain : scanWith r n s = scanWith r k s := ih (by omega) (by omega)
      rw [scanWith, scanWith]
      rcases r.first (a :: s) with - | m
      · dsimp only
        rw [hplain]
      · dsimp only
        split_ifs with hlen
        · have hrest : scanWith r n m.text = scanWith r k m.text := ih (by omega) (by omega)
          rw [hrest]
        · rw [hplain]

@[simp] theorem scan_nil (r : Regex α) : scan r [] = [] := rfl

/-- The scan where nothing matches. -/
theorem scan_plain {r : Regex α} {a : α} {s : List α} (h : r.ends ⟨a :: s, none⟩ = []) :
    scan r (a :: s) = .plain a :: scan r s := by
  have hfirst : r.first (a :: s) = none := by rw [first, h]; rfl
  rw [scan, List.length_cons, scanWith, hfirst]
  rfl

/-- The scan at a match. -/
theorem scan_hit {r : Regex α} {t rest : List α} {g : Option (List α)}
    (h : Leads r ⟨t ++ rest, none⟩ ⟨rest, g⟩) (ht : t ≠ []) :
    scan r (t ++ rest) = .hit t g :: scan r rest := by
  have hfirst : r.first (t ++ rest) = some ⟨rest, g⟩ := h
  obtain ⟨a, t, rfl⟩ := List.exists_cons_of_ne_nil ht
  have hlen : rest.length ≤ (t ++ rest).length := by simp
  have htake : (a :: (t ++ rest)).take ((t ++ rest).length + 1 - rest.length) = a :: t := by
    rw [← List.cons_append, ← List.length_cons, ← List.cons_append, List.length_append,
      Nat.add_sub_cancel, List.take_left]
  rw [List.cons_append] at hfirst
  rw [List.cons_append, scan, List.length_cons, scanWith, hfirst]
  dsimp only
  rw [if_pos hlen, htake, scan, scanWith_fuel r hlen (Nat.le_refl _)]

/-- The scan goes on behind its first piece. -/
theorem scan_cons {r : Regex α} {s : List α} {p : Piece α} {ps : List (Piece α)}
    (h : scan r s = p :: ps) : ∃ rest, s = p.text ++ rest ∧ ps = scan r rest := by
  rcases s with - | ⟨a, s⟩
  · cases h
  rw [scan, List.length_cons, scanWith] at h
  rcases hfirst : r.first (a :: s) with - | m
  · rw [hfirst] at h
    obtain ⟨rfl, rfl⟩ := List.cons.inj h
    exact ⟨s, rfl, rfl⟩
  · rw [hfirst] at h
    dsimp only at h
    split_ifs at h with hlen
    · obtain ⟨rfl, rfl⟩ := List.cons.inj h
      obtain ⟨t, ht⟩ := r.ends_suffix ⟨a :: s, none⟩ m (List.mem_of_mem_head? hfirst)
      refine ⟨m.text, ?_, scanWith_fuel r hlen (Nat.le_refl _)⟩
      have hsplit : t ++ m.text = a :: s := ht
      have htake : (a :: s).take (s.length + 1 - m.text.length) = t := by
        rw [← List.length_cons (a := a), ← hsplit, List.length_append, Nat.add_sub_cancel,
          List.take_left]
      rw [Piece.text, htake, hsplit]
    · obtain ⟨rfl, rfl⟩ := List.cons.inj h
      exact ⟨s, rfl, rfl⟩

/-- The pieces make up the text. -/
theorem textOf_scan (r : Regex α) (s : List α) : textOf (scan r s) = s := by
  generalize hps : scan r s = ps
  induction ps generalizing s with
  | nil =>
      rcases s with - | ⟨a, s⟩
      · rfl
      · rw [scan, List.length_cons, scanWith] at hps
        split at hps
        · cases hps
        · split_ifs at hps
  | cons p ps ih =>
      obtain ⟨rest, rfl, rfl⟩ := scan_cons hps
      rw [textOf_cons, ih rest rfl]

/-- The scan from a later piece on is the scan of the text from there. -/
theorem scan_textOf {r : Regex α} {s : List α} {ps qs : List (Piece α)}
    (h : scan r s = ps ++ qs) : s = textOf ps ++ textOf qs ∧ scan r (textOf qs) = qs := by
  induction ps generalizing s with
  | nil =>
      rw [List.nil_append] at h
      rw [← h, textOf_scan]
      exact ⟨rfl, rfl⟩
  | cons p ps ih =>
      obtain ⟨rest, rfl, hrest⟩ := scan_cons h
      obtain ⟨htext, hscan⟩ := ih hrest.symm
      rw [textOf_cons, List.append_assoc, ← htext]
      exact ⟨rfl, hscan⟩

end Regex

end Py
