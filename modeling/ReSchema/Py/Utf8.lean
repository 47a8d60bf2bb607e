/-
ReSchema/Py/Utf8.lean

UTF-8 both ways, and the JSON texts that travel through it.

What decodes strictly is the encoding of what it decodes to, and what has no
surrogates is decoded back whatever the handler (`decodeUtf8_strict_iff`).  A
text that `json.loads` accepts has no NUL (`zero_not_mem_of_loadsText`), so the
detection of the encoding takes its UTF-8 for what it is and the text and its
octets are one value (`loads_encode`).
-/
import ReSchema.Py.Sorted

namespace Py

/-! ### One sequence -/

/-- Half of a surrogate pair. -/
def isSurrogate (c : CodePoint) : Bool := isHigh c || isLow c

/-- A text of Unicode scalar values. -/
def NoSurrogate (s : PyStr) : Prop := ∀ c ∈ s, isSurrogate c = false

theorem isSurrogate_false {c : CodePoint} :
    isSurrogate c = false ↔ c.val < 0xd800 ∨ 0xe000 ≤ c.val := by
  simp [isSurrogate, isHigh, isLow]
  omega

theorem noSurrogate_cons {c : CodePoint} {s : PyStr} :
    NoSurrogate (c :: s) ↔ isSurrogate c = false ∧ NoSurrogate s := List.forall_mem_cons

theorem Printable.noSurrogate {s : PyStr} (h : Printable s) : NoSurrogate s := fun c hc =>
  isSurrogate_false.mpr (.inl (by have := (h.isAscii c hc).2; omega))

/-- Nothing is joined in such a text. -/
theorem joinPairs_scalar {s : PyStr} (h : NoSurrogate s) : joinPairs s = s :=
  joinPairs_of_not_high fun c hc => by
    have := h c hc
    rw [isSurrogate, Bool.or_eq_false_iff] at this
    exact this.1

theorem toNat_ofNat {n : ℕ} (h : n < 256) : (UInt8.ofNat n).toNat = n := by
  rw [UInt8.toNat_ofNat']
  exact Nat.mod_eq_of_lt h

theorem codePoint_eq {n : ℕ} {c : CodePoint} (h : n = c.val) : codePoint n = c := by
  rw [h, codePoint_val]

section Step

variable {e : OnError} {b0 b1 b2 b3 : UInt8} {r : Bytes}

theorem decodeUtf8_one (h0 : b0.toNat < 0x80) :
    decodeUtf8 e (b0 :: r) = (decodeUtf8 e r).map (codePoint b0.toNat :: ·) := by
  have hlt : b0 < 0x80 := UInt8.lt_iff_toNat_lt.mpr h0
  rw [decodeUtf8.eq_def]
  simp only [hlt, if_true]

/-- Past the first two tests of the decoder. -/
theorem lead_bounds (hlo : 0xc2 ≤ b0.toNat) (hhi : b0.toNat ≤ 0xf4) :
    ¬ b0 < 0x80 ∧ ¬ (b0 < 0xc2 ∨ 0xf4 < b0) := by
  simp only [UInt8.lt_iff_toNat_lt, UInt8.reduceToNat]
  omega

theorem decodeUtf8_two (hlo : 0xc2 ≤ b0.toNat) (hhi : b0.toNat < 0xe0) (h1 : isCont b1 = true) :
    decodeUtf8 e (b0 :: b1 :: r) = (decodeUtf8 e r).map (join2 b0 b1 :: ·) := by
  obtain ⟨ha, hb⟩ := lead_bounds hlo (by omega)
  have hc : b0 < 0xe0 := UInt8.lt_iff_toNat_lt.mpr hhi
  rw [decodeUtf8.eq_def]
  simp only [ha, hb, hc, h1, if_true, if_false]

theorem decodeUtf8_three (hlo : 0xe0 ≤ b0.toNat) (hhi : b0.toNat < 0xf0)
    (h1 : isSecond b0 b1 = true) (h2 : isCont b2 = true) :
    decodeUtf8 e (b0 :: b1 :: b2 :: r) = (decodeUtf8 e r).map (join3 b0 b1 b2 :: ·) := by
  obtain ⟨ha, hb⟩ := lead_bounds (by omega : 0xc2 ≤ b0.toNat) (by omega)
  have hc : ¬ b0 < 0xe0 := fun h => by have := UInt8.lt_iff_toNat_lt.mp h; simp at this; omega
  have hd : b0 < 0xf0 := UInt8.lt_iff_toNat_lt.mpr hhi
  rw [decodeUtf8.eq_def]
  simp only [ha, hb, hc, hd, h1, h2, if_true, if_false]

theorem decodeUtf8_four (hlo : 0xf0 ≤ b0.toNat) (hhi : b0.toNat ≤ 0xf4)
    (h1 : isSecond b0 b1 = true) (h2 : isCont b2 = true) (h3 : isCont b3 = true) :
    decodeUtf8 e (b0 :: b1 :: b2 :: b3 :: r) =
      (decodeUtf8 e r).map (join4 b0 b1 b2 b3 :: ·) := by
  obtain ⟨ha, hb⟩ := lead_bounds (by omega : 0xc2 ≤ b0.toNat) hhi
  have hc : ¬ b0 < 0xe0 := fun h => by have := UInt8.lt_iff_toNat_lt.mp h; simp at this; omega
  have hd : ¬ b0 < 0xf0 := fun h => by have := UInt8.lt_iff_toNat_lt.mp h; simp at this; omega
  rw [decodeUtf8.eq_def]
  simp only [ha, hb, hc, hd, h1, h2, h3, if_true, if_false]

/-- What a strict decoder has read at the front. -/
theorem decodeUtf8_cases {s : PyStr} (h : decodeUtf8 .strict (b0 :: r) = some s) :
    (b0.toNat < 0x80 ∧ ∃ t, decodeUtf8 .strict r = some t ∧ s = codePoint b0.toNat :: t) ∨
    (0xc2 ≤ b0.toNat ∧ b0.toNat < 0xe0 ∧ ∃ b1 r1 t, r = b1 :: r1 ∧ isCont b1 = true ∧
      decodeUtf8 .strict r1 = some t ∧ s = join2 b0 b1 :: t) ∨
    (0xe0 ≤ b0.toNat ∧ b0.toNat < 0xf0 ∧ ∃ b1 b2 r2 t, r = b1 :: b2 :: r2 ∧
      isSecond b0 b1 = true ∧ isCont b2 = true ∧
      decodeUtf8 .strict r2 = some t ∧ s = join3 b0 b1 b2 :: t) ∨
    (0xf0 ≤ b0.toNat ∧ b0.toNat ≤ 0xf4 ∧ ∃ b1 b2 b3 r3 t, r = b1 :: b2 :: b3 :: r3 ∧
      isSecond b0 b1 = true ∧ isCont b2 = true ∧ isCont b3 = true ∧
      decodeUtf8 .strict r3 = some t ∧ s = join4 b0 b1 b2 b3 :: t) := by
  rw [decodeUtf8.eq_def] at h
  simp only [OnError.recover, OnError.passes, Bool.false_and, Bool.false_eq_true, if_false,
    UInt8.lt_iff_toNat_lt, UInt8.reduceToNat] at h
  -- by the lead byte, and then the continuation bytes that have to be there
  split_ifs at h with ha hb hc hd
  · obtain ⟨t, ht, rfl⟩ := Option.map_eq_some_iff.mp h
    exact .inl ⟨ha, t, ht, rfl⟩
  · rcases r with - | ⟨b1, r1⟩
    · simp at h
    · simp only at h
      split_ifs at h with h1
      obtain ⟨t, ht, rfl⟩ := Option.map_eq_some_iff.mp h
      exact .inr (.inl ⟨by omega, hc, b1, r1, t, rfl, h1, ht, rfl⟩)
  · rcases r with - | ⟨b1, - | ⟨b2, r2⟩⟩
    · simp at h
    · simp at h
    · simp only at h
      split_ifs at h with h1 h2
      obtain ⟨t, ht, rfl⟩ := Option.map_eq_some_iff.mp h
      exact .inr (.inr (.inl ⟨by omega, hd, b1, b2, r2, t, rfl, h1, h2, ht, rfl⟩))
  · rcases r with - | ⟨b1, - | ⟨b2, - | ⟨b3, r3⟩⟩⟩
    · simp at h
    · simp at h
    · simp at h
    · simp only at h
      split_ifs at h with h1 h2 h3
      obtain ⟨t, ht, rfl⟩ := Option.map_eq_some_iff.mp h
      exact .inr (.inr (.inr ⟨by omega, by omega, b1, b2, b3, r3, t, rfl, h1, h2, h3, ht, rfl⟩))

end Step

theorem isCont_iff {b : UInt8} : isCont b = true ↔ 0x80 ≤ b.toNat ∧ b.toNat ≤ 0xbf := by
  simp [isCont, UInt8.le_iff_toNat_le]

theorem isSecond_iff {b0 b1 : UInt8} : isSecond b0 b1 = true ↔
    (if b0.toNat = 0xe0 then 0xa0 else if b0.toNat = 0xf0 then 0x90 else 0x80) ≤ b1.toNat ∧
    b1.toNat ≤ (if b0.toNat = 0xed then 0x9f else if b0.toNat = 0xf4 then 0x8f else 0xbf) := by
  simp only [isSecond, isCont, ← UInt8.toNat_inj, UInt8.reduceToNat]
  split_ifs <;> simp [UInt8.le_iff_toNat_le] <;> omega

/-- The sequence of a code point is read as that code point. -/
theorem decodeUtf8_encodeChar (e : OnError) {c : CodePoint} (hc : isSurrogate c = false)
    (r : Bytes) : decodeUtf8 e (encodeChar c ++ r) = (decodeUtf8 e r).map (c :: ·) := by
  have hlt := c.isLt
  rw [isSurrogate_false] at hc
  unfold encodeChar
  -- one to four bytes; the decoder puts the same digits together again
  split_ifs with h1 h2 h3
  · have h0 := toNat_ofNat (n := c.val) (by omega)
    rw [List.singleton_append, decodeUtf8_one (by omega), codePoint_eq h0]
  · have h0 := toNat_ofNat (n := 0xc0 + c.val / 0x40) (by omega)
    have h1 := toNat_ofNat (n := 0x80 + c.val % 0x40) (by omega)
    have hjoin : join2 (UInt8.ofNat (0xc0 + c.val / 0x40)) (UInt8.ofNat (0x80 + c.val % 0x40)) = c :=
      codePoint_eq (by rw [h0, h1]; omega)
    show decodeUtf8 e (_ :: _ :: r) = _
    rw [decodeUtf8_two (by omega) (by omega) (isCont_iff.mpr (by omega)), hjoin]
  · have h0 := toNat_ofNat (n := 0xe0 + c.val / 0x1000) (by omega)
    have h1 := toNat_ofNat (n := 0x80 + c.val / 0x40 % 0x40) (by omega)
    have h2 := toNat_ofNat (n := 0x80 + c.val % 0x40) (by omega)
    have hjoin : join3 (UInt8.ofNat (0xe0 + c.val / 0x1000))
        (UInt8.ofNat (0x80 + c.val / 0x40 % 0x40)) (UInt8.ofNat (0x80 + c.val % 0x40)) = c :=
      codePoint_eq (by rw [h0, h1, h2]; omega)
    show decodeUtf8 e (_ :: _ :: _ :: r) = _
    rw [decodeUtf8_three (by omega) (by omega) (isSecond_iff.mpr ?_) (isCont_iff.mpr (by omega)),
      hjoin]
    rw [h0, h1]
    split_ifs <;> omega
  · have h0 := toNat_ofNat (n := 0xf0 + c.val / 0x40000) (by omega)
    have h1 := toNat_ofNat (n := 0x80 + c.val / 0x1000 % 0x40) (by omega)
    have h2 := toNat_ofNat (n := 0x80 + c.val / 0x40 % 0x40) (by omega)
    have h3 := toNat_ofNat (n := 0x80 + c.val % 0x40) (by omega)
    have hjoin : join4 (UInt8.ofNat (0xf0 + c.val / 0x40000))
        (UInt8.ofNat (0x80 + c.val / 0x1000 % 0x40)) (UInt8.ofNat (0x80 + c.val / 0x40 % 0x40))
        (UInt8.ofNat (0x80 + c.val % 0x40)) = c :=
      codePoint_eq (by rw [h0, h1, h2, h3]; omega)
    show decodeUtf8 e (_ :: _ :: _ :: _ :: r) = _
    rw [decodeUtf8_four (by omega) (by omega) (isSecond_iff.mpr ?_) (isCont_iff.mpr (by omega))
      (isCont_iff.mpr (by omega)), hjoin]
    rw [h0, h1]
    split_ifs <;> omega

/-- Whatever the handler, a text without surrogates decodes to itself. -/
theorem decodeUtf8_encode (e : OnError) {s : PyStr} (h : NoSurrogate s) :
    decodeUtf8 e (encode s) = some s := by
  induction s with
  | nil => rfl
  | cons c s ih =>
      obtain ⟨hc, hs⟩ := noSurrogate_cons.mp h
      rw [encode_cons, decodeUtf8_encodeChar e hc, ih hs]
      rfl

theorem codePoint_val_of_lt {n : ℕ} (h : n < 0x110000) : (codePoint n).val = n := by
  simp [codePoint, h]

theorem ofNat_eq {n : ℕ} {b : UInt8} (h : n = b.toNat) : UInt8.ofNat n = b := by
  rw [h, UInt8.ofNat_toNat]

/-- The octets of a sequence are those of its code point, which is no surrogate. -/
theorem encodeChar_two {b0 b1 : UInt8} (hlo : 0xc2 ≤ b0.toNat) (hhi : b0.toNat < 0xe0)
    (h1 : isCont b1 = true) :
    encodeChar (join2 b0 b1) = [b0, b1] ∧ isSurrogate (join2 b0 b1) = false := by
  rw [isCont_iff] at h1
  have hv : (join2 b0 b1).val = (b0.toNat % 0x20) * 0x40 + b1.toNat % 0x40 :=
    codePoint_val_of_lt (by omega)
  refine ⟨?_, isSurrogate_false.mpr (by omega)⟩
  have e0 : UInt8.ofNat (0xc0 + (join2 b0 b1).val / 0x40) = b0 := ofNat_eq (by omega)
  have e1 : UInt8.ofNat (0x80 + (join2 b0 b1).val % 0x40) = b1 := ofNat_eq (by omega)
  rw [encodeChar, if_neg (by omega), if_pos (by omega), e0, e1]

theorem encodeChar_three {b0 b1 b2 : UInt8} (hlo : 0xe0 ≤ b0.toNat) (hhi : b0.toNat < 0xf0)
    (h1 : isSecond b0 b1 = true) (h2 : isCont b2 = true) :
    encodeChar (join3 b0 b1 b2) = [b0, b1, b2] ∧ isSurrogate (join3 b0 b1 b2) = false := by
  rw [isCont_iff] at h2
  rw [isSecond_iff] at h1
  have hv : (join3 b0 b1 b2).val =
      (b0.toNat % 0x10) * 0x1000 + (b1.toNat % 0x40) * 0x40 + b2.toNat % 0x40 :=
    codePoint_val_of_lt (by omega)
  -- the second octet keeps the value above the two-octet range and away from the surrogates
  have hrange : 0x80 ≤ b1.toNat ∧ b1.toNat ≤ 0xbf ∧ (b0.toNat = 0xe0 → 0xa0 ≤ b1.toNat) ∧
      (b0.toNat = 0xed → b1.toNat ≤ 0x9f) := by
    split_ifs at h1 <;> omega
  refine ⟨?_, isSurrogate_false.mpr (by omega)⟩
  have e0 : UInt8.ofNat (0xe0 + (join3 b0 b1 b2).val / 0x1000) = b0 := ofNat_eq (by omega)
  have e1 : UInt8.ofNat (0x80 + (join3 b0 b1 b2).val / 0x40 % 0x40) = b1 := ofNat_eq (by omega)
  have e2 : UInt8.ofNat (0x80 + (join3 b0 b1 b2).val % 0x40) = b2 := ofNat_eq (by omega)
  rw [encodeChar, if_neg (by omega), if_neg (by omega), if_pos (by omega), e0, e1, e2]

theorem encodeChar_four {b0 b1 b2 b3 : UInt8} (hlo : 0xf0 ≤ b0.toNat) (hhi : b0.toNat ≤ 0xf4)
    (h1 : isSecond b0 b1 = true) (h2 : isCont b2 = true) (h3 : isCont b3 = true) :
    encodeChar (join4 b0 b1 b2 b3) = [b0, b1, b2, b3] ∧
      isSurrogate (join4 b0 b1 b2 b3) = false := by
  rw [isCont_iff] at h2 h3
  rw [isSecond_iff] at h1
  have hrange : 0x80 ≤ b1.toNat ∧ b1.toNat ≤ 0xbf ∧ (b0.toNat = 0xf0 → 0x90 ≤ b1.toNat) ∧
      (b0.toNat = 0xf4 → b1.toNat ≤ 0x8f) := by
    split_ifs at h1 <;> omega
  have hv : (join4 b0 b1 b2 b3).val = (b0.toNat % 0x08) * 0x40000 + (b1.toNat % 0x40) * 0x1000 +
      (b2.toNat % 0x40) * 0x40 + b3.toNat % 0x40 :=
    codePoint_val_of_lt (by omega)
  refine ⟨?_, isSurrogate_false.mpr (by omega)⟩
  have e0 : UInt8.ofNat (0xf0 + (join4 b0 b1 b2 b3).val / 0x40000) = b0 := ofNat_eq (by omega)
  have e1 : UInt8.ofNat (0x80 + (join4 b0 b1 b2 b3).val / 0x1000 % 0x40) = b1 :=
    ofNat_eq (by omega)
  have e2 : UInt8.ofNat (0x80 + (join4 b0 b1 b2 b3).val / 0x40 % 0x40) = b2 := ofNat_eq (by omega)
  have e3 : UInt8.ofNat (0x80 + (join4 b0 b1 b2 b3).val % 0x40) = b3 := ofNat_eq (by omega)
  rw [encodeChar, if_neg (by omega), if_neg (by omega), if_neg (by omega), e0, e1, e2, e3]

/-- What decodes strictly is the encoding of what it decodes to. -/
theorem encode_of_decodeUtf8 {b : Bytes} {s : PyStr} (h : decodeUtf8 .strict b = some s) :
    encode s = b ∧ NoSurrogate s := by
  -- along the octets, one sequence after another
  induction hn : b.length using Nat.strong_induction_on generalizing b s with
  | _ n ih =>
    subst hn
    rcases b with - | ⟨b0, r⟩
    · obtain rfl : [] = s := Option.some.inj h
      exact ⟨rfl, fun _ hc => absurd hc List.not_mem_nil⟩
    · have next : ∀ {r' : Bytes} {c : CodePoint} {t : PyStr} {bs : Bytes},
          decodeUtf8 .strict r' = some t → encodeChar c = bs ∧ isSurrogate c = false →
          b0 :: r = bs ++ r' → bs ≠ [] → encode (c :: t) = b0 :: r ∧ NoSurrogate (c :: t) := by
        rintro r' c t bs ht ⟨hc, hs⟩ hr hbs
        have hlen := congrArg List.length hr
        rw [List.length_append] at hlen
        have hpos := List.length_pos_of_ne_nil hbs
        obtain ⟨he, hno⟩ := ih r'.length (by omega) ht rfl
        exact ⟨by rw [encode_cons, hc, he, hr], noSurrogate_cons.mpr ⟨hs, hno⟩⟩
      rcases decodeUtf8_cases h with ⟨h0, t, ht, rfl⟩ | ⟨hlo, hhi, b1, r1, t, rfl, h1, ht, rfl⟩ |
        ⟨hlo, hhi, b1, b2, r2, t, rfl, h1, h2, ht, rfl⟩ |
        ⟨hlo, hhi, b1, b2, b3, r3, t, rfl, h1, h2, h3, ht, rfl⟩
      · have hv : (codePoint b0.toNat).val = b0.toNat := codePoint_val_of_lt (by omega)
        have he : encodeChar (codePoint b0.toNat) = [b0] := by
          rw [encodeChar_ascii (by omega), ofNat_eq hv]
        exact next ht ⟨he, isSurrogate_false.mpr (by omega)⟩ rfl (List.cons_ne_nil _ _)
      · exact next ht (encodeChar_two hlo hhi h1) rfl (List.cons_ne_nil _ _)
      · exact next ht (encodeChar_three hlo hhi h1 h2) rfl (List.cons_ne_nil _ _)
      · exact next ht (encodeChar_four hlo hhi h1 h2 h3) rfl (List.cons_ne_nil _ _)

/-- **UTF-8 is one to one**: strictly decoded octets and texts without surrogates. -/
theorem decodeUtf8_strict_iff {b : Bytes} {s : PyStr} :
    decodeUtf8 .strict b = some s ↔ encode s = b ∧ NoSurrogate s :=
  ⟨encode_of_decodeUtf8, fun h => h.1 ▸ decodeUtf8_encode .strict h.2⟩

/-! ### Line ends -/

section LineEnds

variable {α : Type} [DecidableEq α] (cr lf : α)

/-- What text mode reads: a carriage return, and a line feed behind it, is one line feed. -/
def lineEnds : List α → List α
  | [] => []
  | [c] => [if c = cr then lf else c]
  | c :: d :: r =>
      if c = cr then (if d = lf then lf :: lineEnds r else lf :: lineEnds (d :: r))
      else c :: lineEnds (d :: r)

variable {cr lf}

theorem lineEnds_cons {c : α} (h : c ≠ cr) (r : List α) :
    lineEnds cr lf (c :: r) = c :: lineEnds cr lf r := by
  cases r with
  | nil => simp [lineEnds, h]
  | cons d r => rw [lineEnds, if_neg h]

theorem lineEnds_append {p : List α} (h : cr ∉ p) (r : List α) :
    lineEnds cr lf (p ++ r) = p ++ lineEnds cr lf r := by
  induction p with
  | nil => rfl
  | cons c p ih =>
      rw [List.mem_cons, not_or] at h
      rw [List.cons_append, lineEnds_cons (Ne.symm h.1), ih h.2, List.cons_append]

theorem mem_lineEnds {s : List α} {c : α} (h : c ∈ lineEnds cr lf s) : c = lf ∨ c ∈ s := by
  induction s using lineEnds.induct cr lf with
  | case1 => exact absurd h List.not_mem_nil
  | case2 d =>
      rw [lineEnds, List.mem_singleton] at h
      split_ifs at h with hd
      · exact .inl h
      · exact .inr (List.mem_singleton.mpr h)
  | case3 r ih =>
      rw [lineEnds, if_pos rfl, if_pos rfl] at h
      rcases List.mem_cons.mp h with h | h
      · exact .inl h
      · exact (ih h).imp_right fun h => by simp [h]
  | case4 d r hd ih =>
      rw [lineEnds, if_pos rfl, if_neg hd] at h
      rcases List.mem_cons.mp h with h | h
      · exact .inl h
      · exact (ih h).imp_right (List.mem_cons_of_mem _)
  | case5 c' d r hc ih =>
      rw [lineEnds, if_neg hc] at h
      rcases List.mem_cons.mp h with h | h
      · exact .inr (by simp [h])
      · exact (ih h).imp_right (List.mem_cons_of_mem _)

end LineEnds

/-- `read()` of a file that is opened in text mode, after decoding. -/
def universalNewlines : PyStr → PyStr := lineEnds (ch '\r') (ch '\n')

/-- The same on the octets of the file. -/
def newlineBytes : Bytes → Bytes := lineEnds 0x0d 0x0a

theorem NoSurrogate.universalNewlines {s : PyStr} (h : NoSurrogate s) :
    NoSurrogate (universalNewlines s) := by
  intro c hc
  rcases mem_lineEnds hc with rfl | hc
  · decide
  · exact h c hc

/-- An ASCII octet stands in the sequence of its own code point only. -/
theorem ascii_not_mem_encodeChar {a c : CodePoint} (ha : a.val < 0x80) (h : c ≠ a) :
    UInt8.ofNat a.val ∉ encodeChar c := by
  have hlt := c.isLt
  have hne : c.val ≠ a.val := fun h0 => h (Fin.ext h0)
  have hbyte : ∀ {n : ℕ}, n < 256 → n ≠ a.val → UInt8.ofNat a.val ≠ UInt8.ofNat n := by
    intro n hn hd he
    have := congrArg UInt8.toNat he
    rw [toNat_ofNat hn, toNat_ofNat (by omega)] at this
    exact hd this.symm
  unfold encodeChar
  split_ifs with h1 h2 h3
  · simpa using hbyte (by omega) hne
  · simp only [List.mem_cons, List.not_mem_nil, or_false, not_or]
    exact ⟨hbyte (by omega) (by omega), hbyte (by omega) (by omega)⟩
  · simp only [List.mem_cons, List.not_mem_nil, or_false, not_or]
    exact ⟨hbyte (by omega) (by omega), hbyte (by omega) (by omega), hbyte (by omega) (by omega)⟩
  · simp only [List.mem_cons, List.not_mem_nil, or_false, not_or]
    exact ⟨hbyte (by omega) (by omega), hbyte (by omega) (by omega), hbyte (by omega) (by omega),
      hbyte (by omega) (by omega)⟩

theorem cr_not_mem_encodeChar {c : CodePoint} (h : c ≠ ch '\r') : 0x0d ∉ encodeChar c :=
  ascii_not_mem_encodeChar (a := ch '\r') (by decide) h

theorem exists_encodeChar {c : CodePoint} (h : c ≠ ch '\n') :
    ∃ b bs, encodeChar c = b :: bs ∧ b ≠ 0x0a := by
  have hmem := ascii_not_mem_encodeChar (a := ch '\n') (by decide) h
  rcases hc : encodeChar c with - | ⟨b, bs⟩
  · unfold encodeChar at hc
    split_ifs at hc
  · rw [hc, List.mem_cons, not_or] at hmem
    exact ⟨b, bs, rfl, fun hb => hmem.1 (hb ▸ rfl)⟩

/-- Line ends are the same in the text and in its octets. -/
theorem encode_universalNewlines (s : PyStr) :
    encode (universalNewlines s) = newlineBytes (encode s) := by
  have hcr : encodeChar (ch '\r') = [0x0d] := by decide
  have hlf : encodeChar (ch '\n') = [0x0a] := by decide
  induction s using lineEnds.induct (ch '\r') (ch '\n') with
  | case1 => rfl
  | case2 c =>
      by_cases hc : c = ch '\r'
      · subst hc
        decide
      · rw [universalNewlines, newlineBytes, lineEnds, if_neg hc, encode_cons,
          lineEnds_append (cr_not_mem_encodeChar hc)]
        rfl
  | case3 r ih =>
      rw [universalNewlines, newlineBytes] at ih ⊢
      rw [lineEnds, if_pos rfl, if_pos rfl, encode_cons, ih, encode_cons, encode_cons, hcr, hlf]
      rfl
  | case4 d r hd ih =>
      -- a carriage return alone: the next byte is no line feed either
      obtain ⟨b, bs, hb, hne⟩ := exists_encodeChar hd
      rw [universalNewlines, newlineBytes] at ih ⊢
      rw [lineEnds, if_pos rfl, if_neg hd, encode_cons, ih, encode_cons (ch '\r'), hcr, hlf,
        encode_cons, hb]
      show _ = lineEnds 0x0d 0x0a (0x0d :: b :: (bs ++ encode r))
      rw [lineEnds, if_pos rfl, if_neg hne]
      rfl
  | case5 c d r hc ih =>
      rw [universalNewlines, newlineBytes] at ih ⊢
      rw [lineEnds, if_neg hc, encode_cons, ih, encode_cons c,
        lineEnds_append (cr_not_mem_encodeChar hc)]

/-! ### Texts that are JSON -/

/-- What has been read of a text has no NUL in it. -/
def Reads (s r : PyStr) : Prop := ∃ p, s = p ++ r ∧ (0 : CodePoint) ∉ p

theorem Reads.refl (s : PyStr) : Reads s s := ⟨[], rfl, List.not_mem_nil⟩

theorem Reads.trans {s r t : PyStr} (h : Reads s r) (h' : Reads r t) : Reads s t := by
  obtain ⟨p, rfl, hp⟩ := h
  obtain ⟨q, rfl, hq⟩ := h'
  refine ⟨p ++ q, (List.append_assoc p q t).symm, fun hmem => ?_⟩
  exact (List.mem_append.mp hmem).elim hp hq

theorem Reads.cons {c : CodePoint} {s r : PyStr} (hc : c ≠ 0) (h : Reads s r) :
    Reads (c :: s) r := by
  obtain ⟨p, rfl, hp⟩ := h
  exact ⟨c :: p, rfl, fun hmem => (List.mem_cons.mp hmem).elim (fun he => hc he.symm) hp⟩

theorem reads_skipWs (s : PyStr) : Reads s (skipWs s) := by
  refine ⟨s.takeWhile isWs, List.takeWhile_append_dropWhile.symm, fun hmem => ?_⟩
  exact absurd (List.mem_takeWhile_imp hmem) (by decide)

theorem reads_cons_of_skipWs {s r : PyStr} {c : CodePoint} (h : skipWs s = c :: r) (hc : c ≠ 0) :
    Reads s r := (reads_skipWs s).trans (h ▸ (Reads.refl r).cons hc)

theorem reads_of_length {s r p : PyStr} (h : s = p ++ r) (hp : ∀ c ∈ p, c ≠ 0) : Reads s r :=
  ⟨p, h, fun hmem => hp 0 hmem rfl⟩

theorem ne_zero_of_isDigit {c : CodePoint} (h : isDigit c = true) : c ≠ 0 := by
  rintro rfl
  exact absurd h (by decide)

theorem reads_digits (r : PyStr) : Reads r (r.dropWhile isDigit) :=
  reads_of_length List.takeWhile_append_dropWhile.symm fun _ hc =>
    ne_zero_of_isDigit (List.mem_takeWhile_imp hc)

theorem reads_scanFrac (s : PyStr) : Reads s (scanFrac s).2 := by
  unfold scanFrac
  split
  · rename_i p c r
    split_ifs with h
    · obtain ⟨rfl, hc⟩ := h
      exact ((reads_digits r).cons (ne_zero_of_isDigit hc)).cons (by decide)
    · exact .refl _
  · exact .refl _

theorem reads_scanExp (s : PyStr) : Reads s (scanExp s).2 := by
  have hexp : ∀ {e : CodePoint}, e = ch 'e' ∨ e = ch 'E' → e ≠ 0 := by
    rintro e (rfl | rfl) <;> decide
  unfold scanExp
  split
  · rename_i e c r
    split_ifs with h h'
    · exact ((reads_digits r).cons (ne_zero_of_isDigit h.2)).cons (hexp h.1)
    · have hsign : c ≠ 0 := by
        rcases h'.2 with rfl | rfl <;> decide
      rcases r with - | ⟨d, r⟩
      · exact .refl _
      · show Reads _ (if isDigit d then (e :: c :: d :: r.takeWhile isDigit, r.dropWhile isDigit)
          else ([], e :: c :: d :: r)).2
        split_ifs with hd
        · exact (((reads_digits r).cons (ne_zero_of_isDigit hd)).cons hsign).cons (hexp h'.1)
        · exact .refl _
    · exact .refl _
  · exact .refl _

theorem reads_scanSign (s : PyStr) : Reads s (scanSign s).2 := by
  cases s with
  | nil => exact .refl _
  | cons c r =>
      show Reads _ (if c = ch '-' then ([c], r) else ([], c :: r)).2
      split_ifs with h
      · subst h
        exact (Reads.refl r).cons (by decide)
      · exact .refl _

theorem reads_scanNumber {F : Type} [Runtime F] {s r : PyStr} {v : Json F}
    (h : scanNumber s = some (v, r)) : Reads s r := by
  rw [scanNumber.eq_def] at h
  rcases hint : scanInt (scanSign s).2 with - | ⟨ds, t⟩
  · simp [hint] at h
  · obtain ⟨happ, -, hdigit⟩ := scanInt_spec hint
    have hint' : Reads s t := (reads_scanSign s).trans
      (reads_of_length happ.symm fun c hc => ne_zero_of_isDigit (hdigit c hc))
    simp only [hint] at h
    split_ifs at h
    · obtain ⟨-, rfl⟩ := Prod.mk.inj (Option.some.inj h)
      exact hint'
    · obtain ⟨-, rfl⟩ := Prod.mk.inj (Option.some.inj h)
      exact hint'
    · obtain ⟨-, rfl⟩ := Prod.mk.inj (Option.some.inj h)
      exact (hint'.trans (reads_scanFrac t)).trans (reads_scanExp _)

theorem reads_scanScalar {F : Type} [Runtime F] {s r : PyStr} {v : Json F}
    (h : scanScalar s = some (v, r)) : Reads s r ∧ v.joined = v := by
  unfold scanScalar at h
  split at h
  · rename_i q hq
    cases h
    obtain ⟨p, hp, hstrip⟩ := List.exists_of_findSome?_eq_some hq
    obtain ⟨t, ht, htq⟩ := Option.map_eq_some_iff.mp hstrip
    obtain ⟨rfl, rfl⟩ : p.2 = v ∧ t = r := by simpa using htq
    simp only [constants, List.mem_cons, List.not_mem_nil, or_false] at hp
    refine ⟨⟨p.1, stripPrefix_eq_some ht, ?_⟩, ?_⟩
    · rcases hp with rfl | rfl | rfl | rfl | rfl | rfl <;>
        show (0 : CodePoint) ∉ py _ <;> decide
    · rcases hp with rfl | rfl | rfl | rfl | rfl | rfl <;> rfl
  · refine ⟨reads_scanNumber h, ?_⟩
    rw [scanNumber.eq_def] at h
    split at h
    · cases h
    · dsimp only at h
      split_ifs at h <;> (obtain ⟨rfl, -⟩ := Prod.mk.inj (Option.some.inj h); rfl)

/-! ### Strings and values -/

/-- The raw items of a text without surrogates are none. -/
def RawScalar (items : List (Bool × CodePoint)) : Prop :=
  ∀ i ∈ items, i.1 = false → isSurrogate i.2 = false

theorem ne_zero_of_simpleEscape {e u : CodePoint} (h : simpleEscape e = some u) : e ≠ 0 := by
  rintro rfl
  have h0 : simpleEscape 0 = none := by decide
  rw [h0] at h
  cases h

theorem simpleEscape_scalar {e u : CodePoint} (h : simpleEscape e = some u) :
    isSurrogate u = false := by
  unfold simpleEscape at h
  split_ifs at h <;> (obtain rfl := Option.some.inj h; decide)

theorem ne_zero_of_hex4 {x y z w u : CodePoint} (h : hex4 x y z w = some u) :
    x ≠ 0 ∧ y ≠ 0 ∧ z ≠ 0 ∧ w ≠ 0 := by
  have h0 : hexVal 0 = none := by decide
  refine ⟨?_, ?_, ?_, ?_⟩ <;> rintro rfl <;> simp [hex4, h0] at h

/-- One round of the string scanner. -/
theorem scanItems_cases {c : CodePoint} {s r : PyStr} {items : List (Bool × CodePoint)}
    (h : scanItems (c :: s) = some (items, r)) :
    (c = ch '"' ∧ items = [] ∧ r = s) ∨
    (∃ x y z w t u its, c = ch '\\' ∧ s = ch 'u' :: x :: y :: z :: w :: t ∧
      hex4 x y z w = some u ∧ scanItems t = some (its, r) ∧ items = (true, u) :: its) ∨
    (∃ e t u its, c = ch '\\' ∧ s = e :: t ∧ simpleEscape e = some u ∧
      scanItems t = some (its, r) ∧ items = (false, u) :: its) ∨
    (0x20 ≤ c.val ∧ ∃ its, scanItems s = some (its, r) ∧ items = (false, c) :: its) := by
  have peel : ∀ {t : PyStr} {i : Bool × CodePoint},
      ((scanItems t).map fun p => (i :: p.1, p.2)) = some (items, r) →
      ∃ its, scanItems t = some (its, r) ∧ items = i :: its := by
    intro t i ht
    obtain ⟨p, hp, hpr⟩ := Option.map_eq_some_iff.mp ht
    obtain ⟨rfl, rfl⟩ := Prod.mk.inj hpr
    exact ⟨p.1, hp, rfl⟩
  rw [scanItems.eq_def] at h
  simp only at h
  -- the end, an escape, a control character (which is refused) or any other
  split_ifs at h with hq hb hlow
  · obtain ⟨rfl, rfl⟩ := Prod.mk.inj (Option.some.inj h)
    exact .inl ⟨hq, rfl, rfl⟩
  · rcases s with - | ⟨e, t⟩
    · cases h
    · simp only at h
      split_ifs at h with he
      · subst he
        rcases t with - | ⟨x, - | ⟨y, - | ⟨z, - | ⟨w, t⟩⟩⟩⟩
        · cases h
        · cases h
        · cases h
        · cases h
        · rcases hu : hex4 x y z w with - | u
          · simp [hu] at h
          · simp only [hu] at h
            obtain ⟨its, hits, rfl⟩ := peel h
            exact .inr (.inl ⟨x, y, z, w, t, u, its, hb, rfl, hu, hits, rfl⟩)
      · rcases hu : simpleEscape e with - | u
        · simp [hu] at h
        · simp only [hu] at h
          obtain ⟨its, hits, rfl⟩ := peel h
          exact .inr (.inr (.inl ⟨e, t, u, its, hb, rfl, hu, hits, rfl⟩))
  · obtain ⟨its, hits, rfl⟩ := peel h
    exact .inr (.inr (.inr ⟨by omega, its, hits, rfl⟩))

theorem rawScalar_cons {i : Bool × CodePoint} {its : List (Bool × CodePoint)}
    (hi : i.1 = false → isSurrogate i.2 = false) (h : RawScalar its) : RawScalar (i :: its) :=
  List.forall_mem_cons.mpr ⟨hi, h⟩

theorem NoSurrogate.of_append {s t : PyStr} (h : NoSurrogate (s ++ t)) : NoSurrogate t :=
  fun c hc => h c (List.mem_append_right _ hc)

theorem Reads.noSurrogate {s r : PyStr} (h : Reads s r) (hs : NoSurrogate s) : NoSurrogate r := by
  obtain ⟨p, rfl, -⟩ := h
  exact hs.of_append

theorem reads_scanItems {s r : PyStr} {items : List (Bool × CodePoint)}
    (h : scanItems s = some (items, r)) : Reads s r ∧ (NoSurrogate s → RawScalar items) := by
  induction hn : s.length using Nat.strong_induction_on generalizing s items with
  | _ n ih =>
    subst hn
    have hquote : ch '"' ≠ 0 := by decide
    have hslash : ch '\\' ≠ 0 := by decide
    have hu : ch 'u' ≠ 0 := by decide
    rcases s with - | ⟨c, s⟩
    · simp [scanItems] at h
    · rcases scanItems_cases h with ⟨rfl, rfl, rfl⟩ |
        ⟨x, y, z, w, t, u, its, rfl, rfl, hx, hits, rfl⟩ |
        ⟨e, t, u, its, rfl, rfl, he, hits, rfl⟩ | ⟨hc, its, hits, rfl⟩
      · exact ⟨(Reads.refl _).cons hquote, fun _ i hi => absurd hi List.not_mem_nil⟩
      · obtain ⟨hr, hraw⟩ := ih t.length (by simp; omega) hits rfl
        obtain ⟨h1, h2, h3, h4⟩ := ne_zero_of_hex4 hx
        have hread := ((((hr.cons h4).cons h3).cons h2).cons h1).cons hu
        refine ⟨hread.cons hslash, fun hs => ?_⟩
        have ht : NoSurrogate t := fun c hc => hs c (by simp [hc])
        exact rawScalar_cons (fun hi => absurd hi Bool.noConfusion) (hraw ht)
      · obtain ⟨hr, hraw⟩ := ih t.length (by simp) hits rfl
        refine ⟨(hr.cons (ne_zero_of_simpleEscape he)).cons hslash, fun hs => ?_⟩
        have ht : NoSurrogate t := fun c hc => hs c (by simp [hc])
        exact rawScalar_cons (fun _ => simpleEscape_scalar he) (hraw ht)
      · obtain ⟨hr, hraw⟩ := ih s.length (by simp) hits rfl
        refine ⟨hr.cons (fun h0 => by simp [h0] at hc), fun hs => ?_⟩
        obtain ⟨hsc, hs⟩ := noSurrogate_cons.mp hs
        exact rawScalar_cons (fun _ => hsc) (hraw hs)

theorem joinPairs_cons {c : CodePoint} {s : PyStr} (h : ∀ d ∈ s.head?, (isHigh c && isLow d) = false) :
    joinPairs (c :: s) = c :: joinPairs s := by
  cases s with
  | nil => rfl
  | cons d s => rw [joinPairs, if_neg (by rw [h d rfl]; decide)]

theorem isHigh_joinPair {a b : CodePoint} (ha : isHigh a = true) (hb : isLow b = true) :
    isHigh (joinPair a b) = false ∧ isLow (joinPair a b) = false := by
  simp only [isHigh, isLow, Bool.and_eq_true, decide_eq_true_eq, Bool.and_eq_false_iff,
    decide_eq_false_iff_not] at *
  have hv : (joinPair a b).val = 0x10000 + (a.val - 0xd800) * 0x400 + (b.val - 0xdc00) :=
    codePoint_val_of_lt (by omega)
  omega

theorem head_joinItems (b : Bool × CodePoint) (r : List (Bool × CodePoint)) :
    ∃ d, (joinItems (b :: r)).head? = some d ∧ (isLow d = true → d = b.2) := by
  cases r with
  | nil => exact ⟨b.2, rfl, fun _ => rfl⟩
  | cons c r =>
      rw [joinItems]
      split_ifs with h
      · simp only [Bool.and_eq_true] at h
        refine ⟨_, rfl, fun hlow => ?_⟩
        rw [(isHigh_joinPair h.1.2 h.2).2] at hlow
        cases hlow
      · exact ⟨b.2, rfl, fun _ => rfl⟩

/-- **A string of a text without surrogates has no pair left to join.** -/
theorem joinPairs_joinItems {items : List (Bool × CodePoint)} (h : RawScalar items) :
    joinPairs (joinItems items) = joinItems items := by
  have escaped : ∀ {i : Bool × CodePoint}, i ∈ items → isSurrogate i.2 = true → i.1 = true := by
    intro i hi hs
    rcases hi1 : i.1 with - | -
    · rw [h i hi hi1] at hs
      cases hs
    · rfl
  induction items using joinItems.induct with
  | case1 => rfl
  | case2 a => rfl
  | case3 a b r hjoin ih =>
      rw [joinItems, if_pos hjoin]
      simp only [Bool.and_eq_true] at hjoin
      have hr : RawScalar r := fun i hi => h i (by simp [hi])
      rw [joinPairs_cons (fun d _ => ?_), ih hr fun hi => escaped (by simp [hi])]
      rw [(isHigh_joinPair hjoin.1.2 hjoin.2).1]
      rfl
  | case4 a b r hjoin ih =>
      have hr : RawScalar (b :: r) := fun i hi => h i (List.mem_cons_of_mem _ hi)
      rw [joinItems, if_neg hjoin,
        joinPairs_cons (fun d hd => ?_), ih hr fun hi => escaped (List.mem_cons_of_mem _ hi)]
      -- a pair that is still there would have been written as two escapes, and joined
      rw [Bool.and_eq_false_iff]
      by_contra hpair
      rw [not_or, Bool.not_eq_false, Bool.not_eq_false] at hpair
      obtain ⟨e, he, heq⟩ := head_joinItems b r
      obtain rfl : e = d := Option.some.inj (he.symm.trans hd)
      have hb : isLow b.2 = true := heq hpair.2 ▸ hpair.2
      apply hjoin
      rw [escaped (by simp) (by simp [isSurrogate, hpair.1]),
        escaped (i := b) (by simp) (by simp [isSurrogate, hb]), hpair.1, hb]
      rfl

section Values

variable {F : Type} [Runtime F]

theorem reads_scanString {s k r : PyStr} (h : scanString s = some (k, r)) :
    Reads s r ∧ (NoSurrogate s → joinPairs k = k) := by
  obtain ⟨p, hp, hk⟩ := Option.map_eq_some_iff.mp h
  obtain ⟨rfl, rfl⟩ := Prod.mk.inj hk
  obtain ⟨hr, hraw⟩ := reads_scanItems hp
  exact ⟨hr, fun hs => joinPairs_joinItems (hraw hs)⟩

/-- **The scanner's text.**  What has been read has no NUL, and no surrogate pair is left in the
value if the text has no surrogates. -/
theorem value_reads (fuel : ℕ) :
    (∀ depth s (v : Json F) r, value fuel depth s = some (v, r) →
      Reads s r ∧ (NoSurrogate s → v.joined = v)) ∧
    (∀ depth s (xs : List (Json F)) r, elems fuel depth s = some (xs, r) →
      Reads s r ∧ (NoSurrogate s → joinedList xs = xs)) ∧
    (∀ depth s (d : Dict (Json F)) r, members fuel depth s = some (d, r) →
      Reads s r ∧ (NoSurrogate s → joinedDict d = d)) := by
  have hquote : ch '"' ≠ 0 := by decide
  have hbrace : ch '\x7b' ≠ 0 := by decide
  have hbrack : ch '[' ≠ 0 := by decide
  -- the text that is left has no surrogates either, which carries the second half along
  induction fuel with
  | zero => exact ⟨by simp [value], by simp [elems], by simp [members]⟩
  | succ fuel ih =>
      obtain ⟨ihV, ihE, ihM⟩ := ih
      refine ⟨fun depth s v r h => ?_, fun depth s xs r h => ?_, fun depth s d r h => ?_⟩
      · rcases value_cases h with ⟨t, t1, rfl, ht, rfl⟩ |
          ⟨t, d, e, r1, rfl, rfl, ht, ⟨rfl, rfl, rfl⟩ | ⟨es, hes, rfl⟩⟩ |
          ⟨t, d, e, r1, rfl, rfl, ht, ⟨rfl, rfl, rfl⟩ | ⟨xs, hxs, rfl⟩⟩ | hs
        · obtain ⟨hr, hj⟩ := reads_scanString ht
          refine ⟨hr.cons hquote, fun hs => ?_⟩
          rw [Json.joined, hj (noSurrogate_cons.mp hs).2]
        · exact ⟨(reads_cons_of_skipWs ht (by decide)).cons hbrace, fun _ => rfl⟩
        · obtain ⟨hr, hj⟩ := ihM d _ es r hes
          have hread := reads_skipWs t
          rw [ht] at hread
          refine ⟨(hread.trans hr).cons hbrace, fun hs => ?_⟩
          rw [Json.joined, hj (hread.noSurrogate (noSurrogate_cons.mp hs).2)]
        · exact ⟨(reads_cons_of_skipWs ht (by decide)).cons hbrack, fun _ => rfl⟩
        · obtain ⟨hr, hj⟩ := ihE d _ xs r hxs
          have hread := reads_skipWs t
          rw [ht] at hread
          refine ⟨(hread.trans hr).cons hbrack, fun hs => ?_⟩
          rw [Json.joined, hj (hread.noSurrogate (noSurrogate_cons.mp hs).2)]
        · obtain ⟨hr, hj⟩ := reads_scanScalar hs
          exact ⟨hr, fun _ => hj⟩
      · obtain ⟨v, r0, c, r1, hv, hs, hcase⟩ := elems_cases h
        obtain ⟨hr, hj⟩ := ihV depth s v r0 hv
        rcases hcase with ⟨rfl, rfl, rfl⟩ | ⟨rfl, ys, hys, rfl⟩
        · refine ⟨hr.trans (reads_cons_of_skipWs hs (by decide)), fun hno => ?_⟩
          rw [joinedList, hj hno, joinedList]
        · obtain ⟨hr', hj'⟩ := ihE depth _ ys r hys
          have hread := (hr.trans (reads_cons_of_skipWs hs (by decide))).trans (reads_skipWs r1)
          refine ⟨hread.trans hr', fun hno => ?_⟩
          rw [joinedList, hj hno, hj' (hread.noSurrogate hno)]
      · obtain ⟨t, k, r0, r1, v, r2, c, r3, rfl, hk, hs1, hv, hs2, hcase⟩ := members_cases h
        obtain ⟨hrk, hjk⟩ := reads_scanString hk
        obtain ⟨hrv, hjv⟩ := ihV depth _ v r2 hv
        -- the key and the colon, and up to the end of the value
        have hkey : Reads (ch '"' :: t) (skipWs r1) :=
          ((hrk.trans (reads_cons_of_skipWs hs1 (by decide))).trans (reads_skipWs r1)).cons hquote
        have hval : Reads (ch '"' :: t) r2 := hkey.trans hrv
        rcases hcase with ⟨rfl, rfl, rfl⟩ | ⟨rfl, e, he, rfl⟩
        · refine ⟨hval.trans (reads_cons_of_skipWs hs2 (by decide)), fun hno => ?_⟩
          rw [joinedDict, hjk (noSurrogate_cons.mp hno).2, hjv (hkey.noSurrogate hno), joinedDict]
        · obtain ⟨hre, hje⟩ := ihM depth _ e r he
          have hread := (hval.trans (reads_cons_of_skipWs hs2 (by decide))).trans (reads_skipWs r3)
          refine ⟨hread.trans hre, fun hno => ?_⟩
          rw [joinedDict, hjk (noSurrogate_cons.mp hno).2, hjv (hkey.noSurrogate hno),
            hje (hread.noSurrogate hno)]

theorem loadsText_cases {s : PyStr} {v : Json F} (h : loadsText s = some v) :
    s.head? ≠ some 0xfeff ∧ ∃ w r, value (2 * s.length + 1) (Runtime.maxDepth F) (skipWs s) =
      some (w, r) ∧ skipWs r = [] ∧ w.dedupe = v := by
  rw [loadsText] at h
  split_ifs at h with hbom
  obtain ⟨w, hw, hd⟩ := Option.map_eq_some_iff.mp h
  rw [loadsPairs] at hw
  split at hw
  · rename_i w' r hval
    split_ifs at hw with hend
    obtain rfl := Option.some.inj hw
    exact ⟨hbom, w', r, hval, hend, hd⟩
  · cases hw

/-- A JSON text has no NUL. -/
theorem zero_not_mem_of_loadsText {s : PyStr} {v : Json F} (h : loadsText s = some v) :
    (0 : CodePoint) ∉ s := by
  obtain ⟨-, w, r, hval, hend, -⟩ := loadsText_cases h
  have hread := (reads_skipWs s).trans ((value_reads _).1 _ _ _ _ hval).1
  have hrest := reads_skipWs r
  rw [hend] at hrest
  obtain ⟨p, hp, hno⟩ := hread.trans hrest
  rw [hp, List.append_nil]
  exact hno

omit [Runtime F] in
theorem joined_dedupe {v : Json F} : v.joined = v → v.dedupe.joined = v.dedupe := by
  induction v using Json.induct with
  | arr xs ih =>
      intro h
      rw [Json.joined, joinedList_eq_map, Json.arr.injEq] at h
      rw [Json.dedupe, Json.joined, joinedList_eq_map, dedupeList_eq_map, List.map_map]
      congr 1
      apply List.map_congr_left
      intro x hx
      apply ih x hx
      exact List.map_eq_map_iff.mp (h.trans (List.map_id xs).symm) x hx
  | obj d ih =>
      intro h
      rw [Json.joined, Json.obj.injEq, joinedDict_eq_self] at h
      rw [Json.dedupe, Json.joined, Json.obj.injEq, joinedDict_eq_self]
      intro e he
      rcases Dict.mem_update he with he | he
      · exact absurd he List.not_mem_nil
      · rw [dedupeDict_eq_map] at he
        obtain ⟨e', he', rfl⟩ := List.mem_map.mp he
        exact ⟨(h e' he').1, ih e' he' (h e' he').2⟩
  | _ => exact fun h => h

/-- A value that is read from a text without surrogates has no pair left to join. -/
theorem joined_of_loadsText {s : PyStr} (hs : NoSurrogate s) {v : Json F}
    (h : loadsText s = some v) : v.joined = v := by
  obtain ⟨-, w, r, hval, -, rfl⟩ := loadsText_cases h
  exact joined_dedupe (((value_reads _).1 _ _ _ _ hval).2 ((reads_skipWs s).noSurrogate hs))

/-! ### The octets of a JSON text -/

/-- An octet below the leads that UTF-8 has no use for, and no NUL. -/
def Octet (b : UInt8) : Prop := b ≠ 0 ∧ b.toNat ≤ 0xf4

theorem octet_ofNat {n : ℕ} (h : 0 < n) (h' : n ≤ 0xf4) : Octet (UInt8.ofNat n) := by
  have hn := toNat_ofNat (n := n) (by omega)
  refine ⟨fun h0 => ?_, by omega⟩
  rw [h0] at hn
  exact absurd hn (by simpa using h.ne)

theorem octet_encodeChar {c : CodePoint} (hc : c ≠ 0) {b : UInt8} (h : b ∈ encodeChar c) :
    Octet b := by
  have hlt := c.isLt
  have hpos : 0 < c.val := Nat.pos_of_ne_zero fun h0 => hc (Fin.ext h0)
  unfold encodeChar at h
  split_ifs at h with h1 h2 h3
  · obtain rfl := List.mem_singleton.mp h
    exact octet_ofNat hpos (by omega)
  · simp only [List.mem_cons, List.not_mem_nil, or_false] at h
    rcases h with rfl | rfl <;> exact octet_ofNat (by omega) (by omega)
  · simp only [List.mem_cons, List.not_mem_nil, or_false] at h
    rcases h with rfl | rfl | rfl <;> exact octet_ofNat (by omega) (by omega)
  · simp only [List.mem_cons, List.not_mem_nil, or_false] at h
    rcases h with rfl | rfl | rfl | rfl <;> exact octet_ofNat (by omega) (by omega)

/-- Octets without NUL, byte order mark or anything that UTF-8 has no use for. -/
theorem detectEncoding_utf8 {b : Bytes} (h : ∀ x ∈ b, Octet x)
    (hbom : ¬ [0xef, 0xbb, 0xbf] <+: b) : detectEncoding b = .utf8 0 := by
  have hnot : ∀ {p : Bytes} {x : UInt8}, x ∈ p → x = 0 ∨ 0xf4 < x.toNat →
      p.isPrefixOf b = false := by
    intro p x hx hbad
    rw [Bool.eq_false_iff]
    intro hp
    obtain ⟨hne, hle⟩ := h x ((List.isPrefixOf_iff_prefix.mp hp).subset hx)
    rcases hbad with hbad | hbad
    · exact hne hbad
    · omega
  have hbom' : [0xef, 0xbb, 0xbf].isPrefixOf b = false := by
    rw [Bool.eq_false_iff]
    exact fun hp => hbom (List.isPrefixOf_iff_prefix.mp hp)
  unfold detectEncoding
  rw [hnot (x := 0) (by simp) (.inl rfl), hnot (x := 0) (by simp) (.inl rfl),
    hnot (x := 0xff) (by simp) (.inr (by decide)), hnot (x := 0xff) (by simp) (.inr (by decide)),
    hbom']
  have hzero : ∀ x ∈ b, x ≠ 0 := fun x hx => (h x hx).1
  show detectWide b = _
  unfold detectWide
  split
  · rw [if_neg (hzero _ (by simp)), if_neg (hzero _ (by simp))]
  · rw [if_neg (hzero _ (by simp)), if_neg (hzero _ (by simp))]
  · rfl

/-- **A JSON text and its octets are one value.** -/
theorem loads_encode {s : PyStr} (hs : NoSurrogate s) {v : Json F} (h : loadsText s = some v) :
    loads (encode s) = some v := by
  have hzero := zero_not_mem_of_loadsText h
  have hread := decodeUtf8_encode .strict hs
  have hdetect : detectEncoding (encode s) = .utf8 0 := by
    apply detectEncoding_utf8
    · intro b hb
      obtain ⟨c, hc, hbc⟩ := List.mem_flatMap.mp hb
      exact octet_encodeChar (fun h0 => hzero (h0 ▸ hc)) hbc
    · rintro ⟨r, hr⟩
      -- the mark would be the first code point of the text
      rw [← hr] at hread
      have hthree : decodeUtf8 .strict (0xef :: 0xbb :: 0xbf :: r) = _ :=
        decodeUtf8_three (by decide) (by decide) (by decide) (by decide)
      obtain ⟨t, -, ht⟩ := Option.map_eq_some_iff.mp (hthree.symm.trans hread)
      apply (loadsText_cases h).1
      rw [← ht]
      exact congrArg some (by decide : join3 0xef 0xbb 0xbf = 0xfeff)
  rw [loads, decodeDetected, hdetect]
  show (decodeUtf8 .surrogatepass (encode s)).bind loadsText = _
  rw [decodeUtf8_encode .surrogatepass hs]
  exact h

end Values

end Py
