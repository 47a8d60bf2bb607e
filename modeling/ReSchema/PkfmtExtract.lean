/-
ReSchema/PkfmtExtract.lean

The walk over the records of a packet is right.

The records before the offset are an initial part of every decomposition of
the packet (`records_split`).  This carries the invariant of the walk
(`RecordsRead`): where it stops early there is no decomposition at all, and
where it comes to the end there is one and no other.
-/
import ReSchema.Pkfmt

namespace ReSchema

open C Py

/-! ### Decompositions -/

theorem Rec.length_bytes (r : Rec) (len : ℕ) : (r.bytes len).length = 3 + r.payload.length := by
  simp [Rec.bytes]
  omega

/-- A record is known from its bytes, whatever follows. -/
theorem Rec.encode_cancel {r r' : Rec} {x y : List U8} (hr : r.payload.length ≤ 1024)
    (hr' : r'.payload.length ≤ 1024) (h : r.encode ++ x = r'.encode ++ y) : r = r' ∧ x = y := by
  obtain ⟨tag, payload⟩ := r
  obtain ⟨tag', payload'⟩ := r'
  simp only [Rec.encode, Rec.bytes, List.cons_append, List.cons.injEq] at h
  obtain ⟨rfl, hlo, hhi, hrest⟩ := h
  have hlen : payload.length = payload'.length := by
    have hlo' := congrArg BitVec.toNat hlo
    have hhi' := congrArg BitVec.toNat hhi
    simp only [BitVec.toNat_ofNat] at hlo' hhi'
    dsimp only at hr hr'
    omega
  obtain ⟨rfl, rfl⟩ := List.append_inj hrest hlen
  exact ⟨rfl, rfl⟩

/-- Records that stand in front are in front of every decomposition. -/
theorem records_split {recs recs' : List Rec} {rest : List U8}
    (hs : ∀ r ∈ recs, r.payload.length ≤ 1024) (hs' : ∀ r ∈ recs', r.payload.length ≤ 1024)
    (hlen : recs.length ≤ recs'.length)
    (h : recs'.flatMap Rec.encode = recs.flatMap Rec.encode ++ rest) :
    ∃ more, recs' = recs ++ more ∧ rest = more.flatMap Rec.encode := by
  induction recs generalizing recs' with
  | nil => exact ⟨recs', rfl, by simpa using h.symm⟩
  | cons r recs ih =>
      rcases recs' with - | ⟨r', recs'⟩
      · exact absurd hlen (by simp)
      obtain ⟨hr, hrs⟩ := List.forall_mem_cons.mp hs
      obtain ⟨hr', hrs'⟩ := List.forall_mem_cons.mp hs'
      rw [List.flatMap_cons, List.flatMap_cons, List.append_assoc] at h
      obtain ⟨rfl, hrest⟩ := Rec.encode_cancel hr' hr h
      obtain ⟨more, rfl, hmore⟩ := ih hrs hrs' (by simpa using hlen) hrest
      exact ⟨more, rfl, hmore⟩

/-! ### The loop over a payload -/

theorem pkPayload_eq {mem : Memory} {off : ℤ} {len : U32} {bytes : List U8}
    (hlen : bytes.length = len.toNat) (hoff : 0 ≤ off) (hbound : off + len.toNat < 2 ^ 31)
    (hmem : ∀ (i : ℕ) (b : U8), bytes[i]? = some b → mem (off + i) = some b)
    {fuel : ℕ} (hfuel : len.toNat < fuel) (acc : U32) :
    pkPayload fuel mem off len acc =
      .done (bytes.foldl (fun acc b => (acc ^^^ b.setWidth 32) + len) acc) := by
  set f : U32 → U8 → U32 := fun acc b => (acc ^^^ b.setWidth 32) + len with hf
  -- at index `i` the accumulator is the fold of the first `i` bytes
  have hloop := @whileLoop_ends (U32 × U32) Empty (fun s => s.1 < len)
    (fun s => do
      let b ← load mem (BitVec.ofInt 32 off + s.1).toNat
      pure (.inl (s.1 + 1, f s.2 b)))
    (fun s => s.1.toNat ≤ len.toNat ∧ s.2 = (bytes.take s.1.toNat).foldl f acc)
    (fun s => len.toNat - s.1.toNat)
    (fun r => match r with
      | .inl s => s.2 = bytes.foldl f acc
      | .inr e => e.elim) ?_ ?_ fuel (0, acc) ⟨Nat.zero_le _, rfl⟩
    (by simpa using hfuel)
  · obtain ⟨r, hr, hpost⟩ := hloop
    rcases r with s | e
    · rw [pkPayload, hr, done_bind]
      exact congrArg Exec.done hpost
    · exact e.elim
  · rintro ⟨i, a⟩ ⟨hi, ha⟩ htest
    have hlt : i.toNat < len.toNat := of_decide_eq_true htest
    have hidx : i.toNat < bytes.length := by omega
    -- the index is added as unsigned, and does not wrap around
    have hat : ((BitVec.ofInt 32 off + i).toNat : ℤ) = off + i.toNat := by
      rw [BitVec.toNat_add, BitVec.toNat_ofInt]
      have := i.isLt
      omega
    have hsucc : (i + 1).toNat = i.toNat + 1 := by
      rw [BitVec.toNat_add]
      have := len.isLt
      have : (1 : U32).toNat = 1 := rfl
      omega
    refine ⟨.inl (i + 1, f a bytes[i.toNat]), ?_, ?_⟩
    · dsimp only
      rw [hat, load_of_some (hmem _ _ (List.getElem?_eq_getElem hidx))]
      rfl
    · dsimp only at ha ⊢
      refine ⟨⟨by omega, ?_⟩, by omega⟩
      rw [hsucc, List.take_add_one, List.getElem?_eq_getElem hidx, List.foldl_append, ha]
      rfl
  · rintro ⟨i, a⟩ ⟨hi, ha⟩ htest
    have hge : ¬ i.toNat < len.toNat := of_decide_eq_false htest
    dsimp only at ha hi ⊢
    rw [ha, List.take_of_length_le (by omega)]

/-! ### The loop over the records -/

/-- What the loop over the records keeps: it stands behind some records, with their fold. -/
structure RecordsRead (buf : List U8) (tag : ℤ) (s : ExtractState) (recs : List Rec) : Prop where
  count : recs.length = s.record.toNat
  short : ∀ r ∈ recs, r.payload.length ≤ 1024
  four_le : 4 ≤ s.off
  off_le : s.off ≤ buf.length
  bytes : buf.drop 4 = recs.flatMap Rec.encode ++ buf.drop s.off.toNat
  acc : s.acc = extractRecords tag recs

theorem RecordsRead.length_rest {buf : List U8} {tag : ℤ} {s : ExtractState} {recs : List Rec}
    (h : RecordsRead buf tag s recs) :
    ((buf.drop s.off.toNat).length : ℤ) = buf.length - s.off := by
  have := h.four_le
  have := h.off_le
  rw [List.length_drop]
  omega

/-- Behind the records read, every decomposition has the remaining ones. -/
theorem RecordsRead.rest_eq {buf : List U8} {tag : ℤ} {s : ExtractState} {recs recs' : List Rec}
    (h : RecordsRead buf tag s recs) (h' : Records buf recs') {c : U8} (hc : buf[3]? = some c)
    (hle : s.record.toNat ≤ c.toNat) :
    ∃ more, recs' = recs ++ more ∧ buf.drop s.off.toNat = more.flatMap Rec.encode := by
  obtain ⟨c', hc', hcount⟩ := h'.count
  rw [hc, Option.some.injEq] at hc'
  subst hc'
  exact records_split h.short h'.short (by rw [h.count, hcount]; exact hle)
    (h'.bytes.symm.trans h.bytes)

/-- What a decomposition says of the next header. -/
theorem RecordsRead.next {buf : List U8} {tag : ℤ} {s : ExtractState} {recs recs' : List Rec}
    (h : RecordsRead buf tag s recs) (h' : Records buf recs') {c : U8} (hc : buf[3]? = some c)
    (hlt : s.record.toNat < c.toNat) :
    ∃ (r : Rec) (more : List U8), r.payload.length ≤ 1024 ∧
      buf.drop s.off.toNat = r.encode ++ more := by
  obtain ⟨more, rfl, hrest⟩ := h.rest_eq h' hc hlt.le
  obtain ⟨c', hc', hcount⟩ := h'.count
  rw [hc, Option.some.injEq] at hc'
  subst hc'
  rcases more with - | ⟨r, more⟩
  · rw [List.append_nil, h.count] at hcount
    omega
  · refine ⟨r, more.flatMap Rec.encode, ?_, by rw [hrest, List.flatMap_cons]⟩
    exact h'.short r (List.mem_append_right _ List.mem_cons_self)

/-- When all records are read, they are the only decomposition, and it leaves nothing over. -/
theorem RecordsRead.unique {buf : List U8} {tag : ℤ} {s : ExtractState} {recs recs' : List Rec}
    (h : RecordsRead buf tag s recs) (h' : Records buf recs') {c : U8} (hc : buf[3]? = some c)
    (hall : s.record.toNat = c.toNat) : recs' = recs ∧ buf.drop s.off.toNat = [] := by
  obtain ⟨more, rfl, hrest⟩ := h.rest_eq h' hc hall.le
  obtain ⟨c', hc', hcount⟩ := h'.count
  rw [hc, Option.some.injEq] at hc'
  subst hc'
  have hnil : more = [] := by
    rw [List.length_append, h.count] at hcount
    exact List.length_eq_zero_iff.mp (by omega)
  rw [hrest, hnil, List.append_nil]
  exact ⟨rfl, rfl⟩

theorem extractRecords_append (tag : ℤ) (recs : List Rec) (r : Rec) :
    extractRecords tag (recs ++ [r]) = r.fold tag (extractRecords tag recs) := by
  rw [extractRecords, List.foldl_append]
  rfl

/-- The bytes of a header give the length back. -/
theorem Rec.length_of_header {r : Rec} {lo hi t : U8} {tail more : List U8}
    (hr : r.payload.length ≤ 1024) (h : t :: lo :: hi :: tail = r.encode ++ more) :
    r.payload.length = lo.toNat + 256 * hi.toNat ∧ r.payload.length ≤ tail.length := by
  simp only [Rec.encode, Rec.bytes, List.cons_append, List.cons.injEq] at h
  obtain ⟨-, rfl, rfl, rfl⟩ := h
  rw [List.length_append, BitVec.toNat_ofNat, BitVec.toNat_ofNat]
  omega

/-- The tag of a record against that of the call. -/
theorem tag_eq_iff {t : U8} {tag : ℤ} (htag : tag ∈ [pkTagSum, pkTagXor]) :
    (t.setWidth 32 : U32) = BitVec.ofInt 32 tag ↔ (t.toNat : ℤ) = tag := by
  have ht := t.isLt
  rw [← BitVec.toNat_inj, BitVec.toNat_setWidth, BitVec.toNat_ofInt]
  simp only [List.mem_cons, List.not_mem_nil, or_false, pkTagSum, pkTagXor] at htag
  rcases htag with rfl | rfl <;> omega

theorem pkRecord_ends {mem : Memory} {buf : List U8} {n tag : ℤ} {s : ExtractState}
    {recs : List Rec} {fuel : ℕ} {c : U8} (hbuf : (buf.length : ℤ) = n) (hn : n ≤ 4096)
    (hmem : mem.Holds buf) (htag : tag ∈ [pkTagSum, pkTagXor]) (hfuel : 1024 < fuel)
    (hread : RecordsRead buf tag s recs) (hc : buf[3]? = some c)
    (hlt : s.record.toNat < c.toNat) :
    Ends (pkRecord fuel mem n tag s) fun r =>
      match r with
      | .inl s' => s'.record.toNat = s.record.toNat + 1 ∧ ∃ recs', RecordsRead buf tag s' recs'
      | .inr v => v = ⟨0, 2⟩ ∧ ¬ ∃ recs', Records buf recs' := by
  have hfour := hread.four_le
  have hoff := hread.off_le
  have hrest := hread.length_rest
  have hrange : ∀ i : ℤ, -4096 ≤ i → i ≤ 8192 → IntRange i := fun i h1 h2 => by
    constructor <;> omega
  rw [pkRecord, signed_of_range (hrange _ (by omega) (by omega)), done_bind]
  by_cases hleft : n - s.off < 3
  · -- no room for a header
    rw [if_pos hleft]
    refine .done ⟨rfl, fun ⟨recs', h'⟩ => ?_⟩
    obtain ⟨r, more, -, hnext⟩ := hread.next h' hc hlt
    rw [hnext, List.length_append, Rec.encode, Rec.length_bytes] at hrest
    omega
  rw [if_neg hleft]
  obtain ⟨t, lo, hi, tail, htail⟩ : ∃ t lo hi tail, buf.drop s.off.toNat = t :: lo :: hi :: tail := by
    rcases hd : buf.drop s.off.toNat with - | ⟨t, - | ⟨lo, - | ⟨hi, tail⟩⟩⟩
    all_goals rw [hd] at hrest
    · simp only [List.length_nil] at hrest
      omega
    · simp only [List.length_cons, List.length_nil] at hrest
      omega
    · simp only [List.length_cons, List.length_nil] at hrest
      omega
    · exact ⟨t, lo, hi, tail, rfl⟩
  have hget : ∀ (i : ℕ) (b : U8), (t :: lo :: hi :: tail)[i]? = some b →
      mem (s.off + i) = some b := by
    intro i b hb
    rw [← htail, List.getElem?_drop] at hb
    have hidx : s.off + i = ((s.off.toNat + i : ℕ) : ℤ) := by omega
    rw [hidx]
    exact hmem _ _ hb
  rw [htail] at hrest
  simp only [List.length_cons, Nat.cast_add, Nat.cast_one] at hrest
  have hget0 : mem s.off = some t := by simpa using hget 0 t rfl
  have hget1 : mem (s.off + 1) = some lo := hget 1 lo rfl
  have hget2 : mem (s.off + 2) = some hi := hget 2 hi rfl
  rw [load_of_some hget0, done_bind, signed_of_range (hrange _ (by omega) (by omega)), done_bind,
    load_of_some hget1, done_bind, signed_of_range (hrange _ (by omega) (by omega)),
    done_bind, load_of_some hget2, done_bind]
  set len : U32 := lo.setWidth 32 ||| hi.setWidth 32 <<< 8 with hlendef
  have hlen : len.toNat = lo.toNat + 256 * hi.toNat := toNat_le16 lo hi
  have hheader : ∀ {recs'}, Records buf recs' → len.toNat ≤ 1024 ∧ len.toNat ≤ tail.length := by
    intro recs' h'
    obtain ⟨r, more, hr, hnext⟩ := hread.next h' hc hlt
    have hplen := Rec.length_of_header hr (htail.symm.trans hnext)
    omega
  rw [signed_of_range (hrange _ (by omega) (by omega)), done_bind]
  by_cases hlong : pkMaxLen < len
  · -- a payload above the limit
    rw [if_pos hlong]
    have : 1024 < len.toNat := hlong
    exact .done ⟨rfl, fun ⟨recs', h'⟩ => by have := hheader h'; omega⟩
  have hshort : len.toNat ≤ 1024 := by
    have : ¬ 1024 < len.toNat := hlong
    omega
  rw [if_neg hlong, signed_of_range (hrange _ (by omega) (by omega)), done_bind]
  have hroom : (BitVec.ofInt 32 (n - (s.off + 3))).toNat = tail.length := by
    rw [BitVec.toNat_ofInt]
    omega
  by_cases hover : BitVec.ofInt 32 (n - (s.off + 3)) < len
  · -- a payload beyond the end
    rw [if_pos hover]
    have : tail.length < len.toNat := hroom ▸ hover
    exact .done ⟨rfl, fun ⟨recs', h'⟩ => by have := hheader h'; omega⟩
  have hfit : len.toNat ≤ tail.length := by
    have : ¬ tail.length < len.toNat := hroom ▸ hover
    omega
  rw [if_neg hover]
  -- a whole record
  set r : Rec := ⟨t, tail.take len.toNat⟩ with hr
  have hpay : r.payload.length = len.toNat := by
    rw [hr, List.length_take]
    omega
  have hacc : (if (t.setWidth 32 : U32) = BitVec.ofInt 32 tag then
      pkPayload fuel mem (s.off + 3) len s.acc else .done s.acc) = .done (r.fold tag s.acc) := by
    by_cases ht : (t.toNat : ℤ) = tag
    · have hbytes : ∀ (i : ℕ) (b : U8), r.payload[i]? = some b → mem (s.off + 3 + i) = some b := by
        intro i b hb
        have hb' : (t :: lo :: hi :: tail)[i + 3]? = some b := by
          have hi : i < len.toNat := by
            rw [← hpay]
            exact (List.getElem?_eq_some_iff.mp hb).1
          rw [hr, List.getElem?_take_of_lt hi] at hb
          exact hb
        have hidx : s.off + 3 + (i : ℤ) = s.off + ((i + 3 : ℕ) : ℤ) := by omega
        rw [hidx]
        exact hget _ _ hb'
      have hofNat : BitVec.ofNat 32 r.payload.length = len := by
        rw [hpay, BitVec.ofNat_toNat, BitVec.setWidth_eq]
      rw [if_pos ((tag_eq_iff htag).mpr ht),
        pkPayload_eq hpay (by omega) (by omega) hbytes (by omega), Rec.fold, if_pos ht, hofNat]
    · rw [if_neg (mt (tag_eq_iff htag).mp ht), Rec.fold, if_neg ht]
  have htoInt : len.toInt = len.toNat := by
    rw [BitVec.toInt_eq_toNat_of_lt]
    omega
  rw [hacc, done_bind, signed_of_range (hrange _ (by omega) (by omega)), done_bind]
  have hrecord : (s.record + 1).toNat = s.record.toNat + 1 := by
    have := c.isLt
    have : (1 : U32).toNat = 1 := rfl
    rw [BitVec.toNat_add]
    omega
  refine .done ⟨hrecord, recs ++ [r], ?_⟩
  exact
    { count := by rw [List.length_append, hread.count, hrecord]; rfl
      short := by
        intro r' hr'
        rcases List.mem_append.mp hr' with hr' | hr'
        · exact hread.short r' hr'
        · rw [List.mem_singleton.mp hr']
          omega
      four_le := by dsimp only; omega
      off_le := by dsimp only; omega
      bytes := by
        have hsplit : buf.drop (s.off + 3 + len.toInt).toNat = tail.drop len.toNat := by
          have hidx : (s.off + 3 + len.toInt).toNat = s.off.toNat + (3 + len.toNat) := by omega
          rw [hidx, ← List.drop_drop, htail, Nat.add_comm 3]
          rfl
        have henc : r.encode = t :: lo :: hi :: tail.take len.toNat := by
          have hlo : BitVec.ofNat 8 r.payload.length = lo := by
            apply BitVec.eq_of_toNat_eq
            have := lo.isLt
            rw [BitVec.toNat_ofNat]
            omega
          have hhi : BitVec.ofNat 8 (r.payload.length / 256) = hi := by
            apply BitVec.eq_of_toNat_eq
            have := lo.isLt
            have := hi.isLt
            rw [BitVec.toNat_ofNat]
            omega
          rw [Rec.encode, Rec.bytes, hlo, hhi]
        rw [hread.bytes, List.flatMap_append, List.flatMap_cons, List.flatMap_nil,
          List.append_nil, List.append_assoc, henc, htail, hsplit]
        simp only [List.cons_append, List.take_append_drop]
      acc := by rw [extractRecords_append, ← hread.acc] }

/-! ### The whole walk -/

theorem not_other_tag {tag : ℤ} (htag : tag ∈ [pkTagSum, pkTagXor]) :
    ¬ (tag ≠ pkTagSum ∧ tag ≠ pkTagXor) := by
  simp only [List.mem_cons, List.not_mem_nil, or_false] at htag
  tauto

/-- The walk over the records of an input with the tag and the size that it may have. -/
theorem pkExtract_walk {mem : Memory} {n tag : ℤ} {buf : List U8} (hbuf : buf.length = n.toNat)
    (hmem : mem.Holds buf) {fuel : ℕ} (hfuel : 1024 < fuel) (htag : tag ∈ [pkTagSum, pkTagXor])
    (hn : 4 ≤ n ∧ n ≤ 4096) : Ends (pkExtract fuel mem n tag) (ExtractSpec buf n tag) := by
  have hsize : ¬ (n < 4 ∨ pkMaxPacket < n) := by
    simp only [pkMaxPacket]
    omega
  rw [pkExtract, if_neg (not_other_tag htag), if_neg hsize]
  have hlen : (buf.length : ℤ) = n := by omega
  have hcount : 3 < buf.length := by omega
  set c : U8 := buf[3] with hcdef
  have hc : buf[3]? = some c := List.getElem?_eq_getElem hcount
  have hload : mem 3 = some c := hmem 3 c hc
  have hwidth : (c.setWidth 32 : U32).toNat = c.toNat := by
    have := c.isLt
    rw [BitVec.toNat_setWidth]
    omega
  rw [load_of_some hload, done_bind]
  have hreject : (¬ ∃ recs, Records buf recs) → ExtractSpec buf n tag ⟨0, 2⟩ := fun hnone =>
    { accepts := iff_of_false (by decide) fun h => hnone h.2.2.2
      value := fun h => absurd h (by decide)
      badTag := fun h => absurd htag h
      badSize := fun _ h => absurd hn h
      badShape := fun _ _ _ => ⟨rfl, rfl⟩ }
  have hloop := @whileLoop_ends ExtractState _ (fun s => s.record < c.setWidth 32)
    (pkRecord fuel mem n tag)
    (fun s => s.record.toNat ≤ c.toNat ∧ ∃ recs, RecordsRead buf tag s recs)
    (fun s => c.toNat - s.record.toNat)
    (fun r => match r with
      | .inl s => s.record.toNat = c.toNat ∧ ∃ recs, RecordsRead buf tag s recs
      | .inr v => v = ⟨0, 2⟩ ∧ ¬ ∃ recs, Records buf recs) ?_ ?_
    fuel ⟨0, 4, if tag = pkTagSum then 0 else 0xA0A0A0A0⟩
    ⟨Nat.zero_le _, [], by
      exact ⟨rfl, by simp, le_rfl, by dsimp only; omega, rfl, rfl⟩⟩
    (by have := c.isLt; dsimp only; omega)
  · refine hloop.bind fun r hr => ?_
    rcases r with s | v
    · obtain ⟨hrecord, recs, hread⟩ := hr
      have hrest := hread.length_rest
      dsimp only
      by_cases hend : s.off = n
      · -- nothing left over
        have hnil : buf.drop s.off.toNat = [] := List.length_eq_zero_iff.mp (by omega)
        have hrecs : Records buf recs :=
          ⟨⟨c, hc, hread.count.trans hrecord⟩, hread.short, by
            rw [hread.bytes, hnil, List.append_nil]⟩
        rw [if_neg (not_not.mpr hend)]
        refine .done
          { accepts := iff_of_true rfl ⟨htag, hn.1, hn.2, recs, hrecs⟩
            value := fun _ recs' h' => ?_
            badTag := fun h => absurd htag h
            badSize := fun _ h => absurd hn h
            badShape := fun _ _ h => absurd ⟨recs, hrecs⟩ h }
        rw [(hread.unique h' hc hrecord).1]
        exact hread.acc
      · -- trailing bytes
        rw [if_pos hend]
        refine .done (hreject fun ⟨recs', h'⟩ => ?_)
        rw [(hread.unique h' hc hrecord).2, List.length_nil] at hrest
        omega
    · obtain ⟨rfl, hnone⟩ := hr
      exact .done (hreject hnone)
  · rintro s ⟨-, recs, hread⟩ htest
    have hlt : s.record.toNat < c.toNat := hwidth ▸ of_decide_eq_true htest
    obtain ⟨r, hr, hpost⟩ := pkRecord_ends hlen hn.2 hmem htag hfuel hread hc hlt
    refine ⟨r, hr, ?_⟩
    rcases r with s' | v
    · exact ⟨⟨by omega, hpost.2⟩, by omega⟩
    · exact hpost
  · rintro s ⟨hle, recs, hread⟩ htest
    have hge : ¬ s.record.toNat < c.toNat := hwidth ▸ of_decide_eq_false htest
    exact ⟨by omega, recs, hread⟩

/-- **The walk over the records.**  Whatever the tag and the size, the function ends without
undefined behaviour on every memory that has the buffer and perhaps nothing else, and gives what
it is to give. -/
theorem pkExtract_ends {mem : Memory} {n tag : ℤ} {buf : List U8} (hbuf : buf.length = n.toNat)
    (hmem : mem.Holds buf) {fuel : ℕ} (hfuel : 1024 < fuel) :
    Ends (pkExtract fuel mem n tag) (ExtractSpec buf n tag) := by
  by_cases htag : tag ∈ [pkTagSum, pkTagXor]
  swap
  · -- the tag
    have hif : tag ≠ pkTagSum ∧ tag ≠ pkTagXor := by simpa using htag
    rw [pkExtract, if_pos hif]
    exact .done
      { accepts := iff_of_false (by decide) fun h => htag h.1
        value := fun h => absurd h (by decide)
        badTag := fun _ => ⟨rfl, rfl⟩
        badSize := fun h => absurd h htag
        badShape := fun h => absurd h htag }
  by_cases hn : 4 ≤ n ∧ n ≤ 4096
  swap
  · -- the size
    have hsize : n < 4 ∨ pkMaxPacket < n := by
      simp only [pkMaxPacket]
      omega
    rw [pkExtract, if_neg (not_other_tag htag), if_pos hsize]
    exact .done
      { accepts := iff_of_false (by decide) fun h => hn ⟨h.2.1, h.2.2.1⟩
        value := fun h => absurd h (by decide)
        badTag := fun h => absurd htag h
        badSize := fun _ _ => ⟨rfl, rfl⟩
        badShape := fun _ h => absurd h hn }
  exact pkExtract_walk hbuf hmem hfuel htag hn

/-- One record of one byte. -/
def onePacket : List U8 := [0xb1, 0x5a, 3, 1, 0x20, 1, 0, 5]

theorem pkExtract_ends_one :
    Ends (pkExtract 1025 (Memory.ofBytes onePacket) 8 0x20) (ExtractSpec onePacket 8 0x20) :=
  pkExtract_ends rfl (Memory.holds_ofBytes _) (by decide)

example : pkExtract 1025 (Memory.ofBytes onePacket) 8 0x20 = .done ⟨6, 0⟩ := by decide +kernel

end ReSchema
