/-
ReSchema/PkfmtGrammar.lean

The packets drawn for the packed-record seed (`validate/program.py`).

The generator builds packets of a few records; now and then it flips the magic,
takes an unsupported version, or overclaims the length of the last record.
Each packet is meant for one branch of the program, and gets there whatever
the random stream is (`grammar_branches`).

No payload can make an overclaimed length true: the records in front of the
last one are fixed by the bytes, and what is left is too short for the claim
(`not_records_of_overclaim`).
-/
import ReSchema.PkfmtMain
import ReSchema.Py.Random

namespace ReSchema

open C Py

/-! ### The generator -/

/-- A record, and by how many bytes its header claims more than it has. -/
structure DrawnRecord where
  record : Rec
  excess : ℕ

/-- One round of the loop over the records, from the `k`-th call of the generator on; the call
after it comes with the record. -/
def drawRecord (stream : Stream) (last : Bool) (k : ℕ) : DrawnRecord × ℕ :=
  let ln := (randint stream k 0 6).toNat
  -- only the last payload may be overclaimed, and only there the coin is tossed
  let overclaims := last && randomBelow stream (k + 1) 1621295865853379
  let excess := if overclaims then (randint stream (k + 2) 8 32).toNat else 0
  let k' := k + 1 + (if last then 1 else 0) + (if overclaims then 1 else 0)
  let tag : U8 := choice stream k' [0x20, 0x30]
  let payload := (List.range ln).map fun i => BitVec.ofNat 8 (stream (k' + 1 + i))
  (⟨⟨tag, payload⟩, excess⟩, k' + 1 + ln)

/-- The loop with `n` records left. -/
def drawRecords (stream : Stream) : ℕ → ℕ → List DrawnRecord
  | 0, _ => []
  | n + 1, k =>
      let d := drawRecord stream (n = 0) k
      d.1 :: drawRecords stream n d.2

/-- What the generator decides. -/
structure GrammarDraw where
  magicBad : Bool
  version : U8
  records : List DrawnRecord

/-- The decisions from the `k`-th call on. -/
def grammarDraw (stream : Stream) (k : ℕ) : GrammarDraw where
  magicBad := randomBelow stream k 1351079888211149
  version := choice stream (k + 1) [2, 3, 3, 4, 4, 5]
  records := drawRecords stream (randint stream (k + 2) 0 2).toNat (k + 3)

/-- The bytes of a drawn record. -/
def DrawnRecord.bytes (d : DrawnRecord) : List U8 :=
  d.record.bytes (d.record.payload.length + d.excess)

/-- The packet with these decisions. -/
def GrammarDraw.packet (d : GrammarDraw) : List U8 :=
  (if d.magicBad then 0xB1 ^^^ 0xFF else 0xB1) :: 0x5A :: d.version ::
    BitVec.ofNat 8 d.records.length :: d.records.flatMap DrawnRecord.bytes

/-- `_pkfmt_grammar_packet(rng)`, from the `k`-th call on. -/
def pkfmtGrammarPacket (stream : Stream) (k : ℕ) : List U8 := (grammarDraw stream k).packet

/-- The length of the last record is overclaimed. -/
def GrammarDraw.Overclaimed (d : GrammarDraw) : Prop :=
  ∃ r, d.records.getLast? = some r ∧ 0 < r.excess

/-! ### What is drawn -/

/-- What every draw keeps to. -/
structure DrawnRecords (rs : List DrawnRecord) : Prop where
  payload_le : ∀ r ∈ rs, r.record.payload.length ≤ 6
  excess_le : ∀ r ∈ rs, r.excess ≤ 32
  init : ∀ r ∈ rs.dropLast, r.excess = 0

theorem drawRecord_spec (stream : Stream) (last : Bool) (k : ℕ) :
    (drawRecord stream last k).1.record.payload.length ≤ 6 ∧
      (drawRecord stream last k).1.excess ≤ 32 ∧
      (last = false → (drawRecord stream last k).1.excess = 0) := by
  have hln := randint_mem stream k (show (0 : ℤ) ≤ 6 by decide)
  have hover := randint_mem stream (k + 2) (show (8 : ℤ) ≤ 32 by decide)
  refine ⟨?_, ?_, ?_⟩
  · simp only [drawRecord, List.length_map, List.length_range]
    omega
  · simp only [drawRecord]
    split <;> omega
  · rintro rfl
    rfl

theorem drawRecords_spec (stream : Stream) (n k : ℕ) :
    (drawRecords stream n k).length = n ∧ DrawnRecords (drawRecords stream n k) := by
  induction n generalizing k with
  | zero => exact ⟨rfl, by simp [drawRecords], by simp [drawRecords], by simp [drawRecords]⟩
  | succ n ih =>
      obtain ⟨hlen, hrest⟩ := ih (drawRecord stream (n = 0) k).2
      obtain ⟨hpay, hover, hlast⟩ := drawRecord_spec stream (n = 0) k
      rw [drawRecords]
      refine ⟨by rw [List.length_cons, hlen], ?_, ?_, ?_⟩
      · exact List.forall_mem_cons.mpr ⟨hpay, hrest.payload_le⟩
      · exact List.forall_mem_cons.mpr ⟨hover, hrest.excess_le⟩
      · rcases n with - | n
        · simp [drawRecords]
        · have hne : drawRecords stream (n + 1) (drawRecord stream (n + 1 = 0) k).2 ≠ [] := by
            rw [← List.length_pos_iff, hlen]
            omega
          rw [List.dropLast_cons_of_ne_nil hne]
          exact List.forall_mem_cons.mpr ⟨hlast (by simp), hrest.init⟩

theorem DrawnRecord.bytes_of_honest {r : DrawnRecord} (h : r.excess = 0) :
    r.bytes = r.record.encode := by
  rw [bytes, h, Nat.add_zero, Rec.encode]

theorem flatMap_bytes_of_honest {rs : List DrawnRecord} (h : ∀ r ∈ rs, r.excess = 0) :
    rs.flatMap DrawnRecord.bytes = (rs.map DrawnRecord.record).flatMap Rec.encode := by
  induction rs with
  | nil => rfl
  | cons r rs ih =>
      obtain ⟨hr, hrs⟩ := List.forall_mem_cons.mp h
      rw [List.flatMap_cons, List.map_cons, List.flatMap_cons, ih hrs,
        DrawnRecord.bytes_of_honest hr]

/-- An overclaimed length cannot be true. -/
theorem not_records_of_overclaim {init : List DrawnRecord} {last : DrawnRecord} {a b v : U8}
    (h : DrawnRecords (init ++ [last])) (hlen : (init ++ [last]).length ≤ 2)
    (hover : 0 < last.excess) (recs : List Rec) :
    ¬ Records (a :: b :: v :: BitVec.ofNat 8 (init ++ [last]).length ::
      (init ++ [last]).flatMap DrawnRecord.bytes) recs := by
  intro hrecs
  have hinit : ∀ r ∈ init, r.excess = 0 := by simpa using h.init
  have hpay := h.payload_le last (by simp)
  have hclaim := h.excess_le last (by simp)
  obtain ⟨c, hc, hcount⟩ := hrecs.count
  obtain rfl : BitVec.ofNat 8 (init ++ [last]).length = c := by simpa using hc
  have hcount' : recs.length = init.length + 1 := by
    rw [hcount, BitVec.toNat_ofNat, Nat.mod_eq_of_lt (by omega), List.length_append,
      List.length_singleton]
  have hbytes : recs.flatMap Rec.encode =
      (init.map DrawnRecord.record).flatMap Rec.encode ++ last.bytes := by
    rw [← hrecs.bytes, ← flatMap_bytes_of_honest hinit]
    simp
  have hshort : ∀ r ∈ init.map DrawnRecord.record, r.payload.length ≤ 1024 := by
    intro r hr
    obtain ⟨d, hd, rfl⟩ := List.mem_map.mp hr
    have := h.payload_le d (List.mem_append_left _ hd)
    omega
  obtain ⟨more, rfl, hmore⟩ := records_split hshort hrecs.short
    (by rw [hcount', List.length_map]; omega) hbytes
  obtain ⟨r, rfl⟩ : ∃ r, more = [r] := by
    refine List.length_eq_one_iff.mp ?_
    rw [List.length_append, List.length_map] at hcount'
    omega
  -- the last record of the decomposition has the payload drawn, and another length
  simp only [List.flatMap_cons, List.flatMap_nil, List.append_nil, DrawnRecord.bytes, Rec.encode,
    Rec.bytes, List.cons.injEq] at hmore
  obtain ⟨-, hlo, -, hpayload⟩ := hmore
  have hlo' := congrArg BitVec.toNat hlo
  rw [BitVec.toNat_ofNat, BitVec.toNat_ofNat, ← hpayload] at hlo'
  omega

theorem records_of_honest {rs : List DrawnRecord} {a b v : U8} (h : DrawnRecords rs)
    (hlen : rs.length ≤ 2) (hall : ∀ r ∈ rs, r.excess = 0) :
    Records (a :: b :: v :: BitVec.ofNat 8 rs.length :: rs.flatMap DrawnRecord.bytes)
      (rs.map DrawnRecord.record) where
  count := by
    refine ⟨_, rfl, ?_⟩
    rw [BitVec.toNat_ofNat, Nat.mod_eq_of_lt (by omega), List.length_map]
  short := by
    intro r hr
    obtain ⟨d, hd, rfl⟩ := List.mem_map.mp hr
    have := h.payload_le d hd
    omega
  bytes := flatMap_bytes_of_honest hall

theorem DrawnRecords.length_bytes_le {rs : List DrawnRecord} (h : DrawnRecords rs) :
    (rs.flatMap DrawnRecord.bytes).length ≤ 9 * rs.length := by
  rw [List.length_flatMap]
  have := List.sum_le_card_nsmul (rs.map fun r => r.bytes.length) 9 fun x hx => by
    obtain ⟨r, hr, rfl⟩ := List.mem_map.mp hx
    have := h.payload_le r hr
    rw [DrawnRecord.bytes, Rec.length_bytes]
    omega
  rw [List.length_map, smul_eq_mul] at this
  omega

/-! ### The branches -/

/-- The packet has its records exactly when no length is overclaimed. -/
theorem records_iff_honest (d : GrammarDraw) (h : DrawnRecords d.records)
    (hlen : d.records.length ≤ 2) : (∃ recs, Records d.packet recs) ↔ ¬ d.Overclaimed := by
  -- only the last record may claim more bytes than it has
  rcases List.eq_nil_or_concat d.records with hnil | ⟨init, last, hlast⟩
  · refine iff_of_true ⟨[], ?_⟩ fun ⟨r, hr, _⟩ => by simp [hnil] at hr
    have := records_of_honest (a := if d.magicBad then 0xB1 ^^^ 0xFF else 0xB1) (b := 0x5A)
      (v := d.version) h hlen (by simp [hnil])
    rw [GrammarDraw.packet, hnil]
    rwa [hnil] at this
  · rw [List.concat_eq_append] at hlast
    have hget : d.records.getLast? = some last := by rw [hlast, List.getLast?_concat]
    have hover : d.Overclaimed ↔ 0 < last.excess := by
      constructor
      · rintro ⟨r, hr, hpos⟩
        rw [hget, Option.some.injEq] at hr
        exact hr ▸ hpos
      · exact fun hpos => ⟨last, hget, hpos⟩
    rw [hover]
    constructor
    · rintro ⟨recs, hrecs⟩ hpos
      rw [hlast] at h hlen
      rw [GrammarDraw.packet, hlast] at hrecs
      exact not_records_of_overclaim h hlen hpos recs hrecs
    · intro hpos
      refine ⟨_, records_of_honest h hlen fun r hr => ?_⟩
      rw [hlast] at hr h
      rcases List.mem_append.mp hr with hr | hr
      · exact h.init r (by simpa using hr)
      · rw [List.mem_singleton.mp hr]
        omega

/-- **The branches.**  Whatever the generator draws, the program takes the branch that the packet
was built for. -/
theorem grammar_branches (stream : Stream) (k fuel : ℕ) (hfuel : 4096 < fuel) :
    let d := grammarDraw stream k
    let packet := pkfmtGrammarPacket stream k
    Ends (pkMain fuel packet) fun p =>
      (p.text = py "bad magic\n" ↔ d.magicBad = true) ∧
      (d.magicBad = false →
        (p.text = py "bad version\n" ↔ ¬ (2 ≤ d.version.toNat ∧ d.version.toNat ≤ 4))) ∧
      (d.magicBad = false → 2 ≤ d.version.toNat ∧ d.version.toNat ≤ 4 →
        (p = ⟨py "truncate\n", 2⟩ ↔ d.Overclaimed)) ∧
      (d.magicBad = false → 2 ≤ d.version.toNat ∧ d.version.toNat ≤ 4 → ¬ d.Overclaimed →
        p.code = 0 ∧ ∀ tag ∈ [pkTagSum, pkTagXor],
          Ends (pkExtract fuel (Memory.ofBytes packet) packet.length tag) fun r =>
            r.errno = 0) := by
  intro d packet
  obtain ⟨hn, hdrawn⟩ := drawRecords_spec stream (randint stream (k + 2) 0 2).toNat (k + 3)
  have hcount := randint_mem stream (k + 2) (show (0 : ℤ) ≤ 2 by decide)
  have hlen : d.records.length ≤ 2 := by
    have : d.records.length = (randint stream (k + 2) 0 2).toNat := hn
    omega
  have hrecs := records_iff_honest d hdrawn hlen
  -- two records of at most nine bytes are far below the longest packet
  have hsize : 4 ≤ packet.length ∧ packet.length ≤ 4096 := by
    have hbytes := hdrawn.length_bytes_le
    have : packet.length = (d.records.flatMap DrawnRecord.bytes).length + 4 := rfl
    have : (d.records.flatMap DrawnRecord.bytes).length ≤ 9 * d.records.length := hbytes
    omega
  -- each check of the program, in terms of what was drawn
  have hmagic : HasMagic packet ↔ d.magicBad = false := by
    have htake : packet.take 2 = [if d.magicBad then 0xB1 ^^^ 0xFF else 0xB1, 0x5A] := rfl
    rw [HasMagic, htake]
    cases d.magicBad with
    | true => exact iff_of_false (fun h => absurd h.2 (by decide)) (by decide)
    | false => exact iff_of_true ⟨hsize.1, rfl⟩ rfl
  have hversion : HasVersion packet ↔ 2 ≤ d.version.toNat ∧ d.version.toNat ≤ 4 := by
    constructor
    · rintro ⟨v, hv, h⟩
      obtain rfl : d.version = v := by simpa using (show some d.version = some v from hv)
      exact h
    · exact fun h => ⟨d.version, rfl, h⟩
  have hwell : (∃ recs, WellFormed packet recs) ↔ ¬ d.Overclaimed := by
    rw [← hrecs]
    exact exists_congr fun recs => ⟨fun h => h.2, fun h => ⟨hsize.2, h⟩⟩
  have hextract : ¬ d.Overclaimed → ∀ tag ∈ [pkTagSum, pkTagXor],
      Ends (pkExtract fuel (Memory.ofBytes packet) packet.length tag) fun r => r.errno = 0 := by
    intro hover tag htag
    obtain ⟨r, hr, herr, -⟩ := pkExtract_of_size hsize.1 hsize.2 htag (show 1024 < fuel by omega)
    exact ⟨r, hr, herr.mpr (hrecs.mpr hover)⟩
  obtain ⟨p, hp, hspec⟩ := pkMain_ends packet hfuel
  refine ⟨p, hp, ?_⟩
  -- the texts of the branches are different, so the text names the branch
  cases hspec with
  | badMagic hno =>
      rw [hmagic, Bool.not_eq_false] at hno
      simp [hno]
  | badVersion hm hno =>
      rw [hmagic] at hm
      rw [hversion] at hno
      simp [hm, hno]
  | truncate hm hv hno =>
      rw [hmagic] at hm
      rw [hversion] at hv
      rw [hwell, not_not] at hno
      simp [hm, hv, hno]
  | summary v recs hm hv hget hw =>
      rw [hmagic] at hm
      rw [hversion] at hv
      have hover := hwell.mp ⟨recs, hw⟩
      -- a summary starts with its version, unlike the two texts
      have hhead : ∀ s : String, s.toList.head? ≠ some 'v' →
          pkSummary (v.toNat * 16) (extractRecords pkTagSum recs) (extractRecords pkTagXor recs)
            (fnv (packet.drop 4)) ≠ py s := by
        intro s hs heq
        have hv' : (py s).head? = some (ch 'v') := by rw [← heq]; rfl
        rw [py, List.head?_map] at hv'
        obtain ⟨c, hc, hcv⟩ := Option.map_eq_some_iff.mp hv'
        exact hs (hc.trans (congrArg some (ch_inj.mp hcv)))
      simp [hm, hv, hover, hhead _ (by decide : ("bad magic\n").toList.head? ≠ some 'v'),
        hhead _ (by decide : ("bad version\n").toList.head? ≠ some 'v'), hextract hover]

/-- A stream for a packet of version 3 with one record of two bytes; the coin decides whether its
length is overclaimed. -/
def coinStream (coin : ℕ) : Stream := fun k => ([2 ^ 52, 1, 1, 2, coin, 0, 0, 7, 9][k]?).getD 0

theorem coin_overclaimed : (grammarDraw (coinStream 0) 0).Overclaimed :=
  ⟨⟨⟨0x20, [7, 9]⟩, 8⟩, rfl, by decide⟩

theorem coin_honest : ¬ (grammarDraw (coinStream (2 ^ 52)) 0).Overclaimed := by
  rintro ⟨r, hr, hexcess⟩
  have hlast : (grammarDraw (coinStream (2 ^ 52)) 0).records.getLast? =
      some ⟨⟨0x20, [0, 7]⟩, 0⟩ := rfl
  obtain rfl := Option.some.inj (hlast.symm.trans hr)
  exact absurd hexcess (Nat.lt_irrefl 0)

theorem grammar_branches_coin :
    (Ends (pkMain 4097 (pkfmtGrammarPacket (coinStream 0) 0)) fun p =>
      p = ⟨py "truncate\n", 2⟩) ∧
    Ends (pkMain 4097 (pkfmtGrammarPacket (coinStream (2 ^ 52)) 0)) fun p =>
      p.code = 0 ∧ ∀ tag ∈ [pkTagSum, pkTagXor],
        Ends (pkExtract 4097 (Memory.ofBytes (pkfmtGrammarPacket (coinStream (2 ^ 52)) 0))
          (pkfmtGrammarPacket (coinStream (2 ^ 52)) 0).length tag) fun r => r.errno = 0 := by
  constructor
  · obtain ⟨p, hp, -, -, htruncate, -⟩ := grammar_branches (coinStream 0) 0 4097 (by decide)
    exact ⟨p, hp, (htruncate (by decide) (by decide)).mpr coin_overclaimed⟩
  · obtain ⟨p, hp, -, -, -, hsound⟩ := grammar_branches (coinStream (2 ^ 52)) 0 4097 (by decide)
    exact ⟨p, hp, hsound (by decide) (by decide) coin_honest⟩

end ReSchema
