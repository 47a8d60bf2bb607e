/-
ReSchema/PkfmtMain.lean

The packed-record seed as a program.

`MainSpec` says what `main` prints for an input: which of the checks fails
first, or the summary of the records with their sums and the hash of the bytes.
The program prints this, and nothing else (`pkMain_exact`).
-/
import ReSchema.PkfmtExtract

namespace ReSchema

open C Py

/-! ### The checksum -/

/-- The hash of the bytes behind the header. -/
def fnv (bytes : List U8) : U32 :=
  bytes.foldl (fun h b => (h ^^^ b.setWidth 32) * 16777619) 2166136261

theorem pkChecksum_ends {mem : Memory} {n : ℤ} {buf : List U8} (hbuf : (buf.length : ℤ) = n)
    (hsize : 4 ≤ n ∧ n ≤ 4096) (hmem : mem.Holds buf) {fuel : ℕ} (hfuel : 4096 < fuel) :
    Ends (pkChecksum fuel mem n) fun r => r = ⟨fnv (buf.drop 4), 0⟩ := by
  have hif : ¬ (n < 4 ∨ pkMaxPacket < n) := by
    simp only [pkMaxPacket]
    omega
  set f : U32 → U8 → U32 := fun h b => (h ^^^ b.setWidth 32) * 16777619 with hf
  rw [pkChecksum, if_neg hif]
  -- at index `i` the hash is that of the bytes from the fourth one up to `i`
  refine (@whileLoop_ends (ℤ × U32) Empty _ _
    (fun s => 4 ≤ s.1 ∧ s.1 ≤ n ∧
      s.2 = ((buf.drop 4).take (s.1 - 4).toNat).foldl f 2166136261)
    (fun s => (n - s.1).toNat)
    (Sum.elim (fun s => s.2 = fnv (buf.drop 4)) Empty.elim) ?_ ?_ fuel (4, 2166136261)
    ⟨le_rfl, hsize.1, rfl⟩ (by dsimp only; omega)).bind fun r hr => ?_
  · rintro ⟨i, h⟩ ⟨h4, hn, hh⟩ htest
    have hlt : i < n := of_decide_eq_true htest
    dsimp only at h4 hn hh hlt
    have hidx : i.toNat < buf.length := by omega
    have hload : mem i = some buf[i.toNat] := by
      have := hmem i.toNat _ (List.getElem?_eq_getElem hidx)
      rwa [Int.toNat_of_nonneg (by omega)] at this
    have hrange : IntRange (i + 1) := by constructor <;> omega
    have hdrop : (buf.drop 4)[(i - 4).toNat]? = some buf[i.toNat] := by
      have hsum : 4 + (i - 4).toNat = i.toNat := by omega
      rw [List.getElem?_drop, hsum, List.getElem?_eq_getElem hidx]
    have hsucc : (i + 1 - 4).toNat = (i - 4).toNat + 1 := by omega
    refine ⟨.inl (i + 1, f h buf[i.toNat]), ?_, ⟨by omega, by omega, ?_⟩, by omega⟩
    · dsimp only
      rw [load_of_some hload, done_bind, signed_of_range hrange]
      rfl
    · rw [hsucc, List.take_add_one, hdrop, List.foldl_append, ← hh]
      rfl
  · rintro ⟨i, h⟩ ⟨h4, hn, hh⟩ htest
    have hge : ¬ i < n := of_decide_eq_false htest
    dsimp only at h4 hn hh ⊢
    have hlen : (buf.drop 4).length = (i - 4).toNat := by
      rw [List.length_drop]
      omega
    rw [hh, ← hlen, List.take_length]
    rfl
  · rcases r with s | e
    · exact .done (congrArg (fun h => (⟨h, 0⟩ : Extract)) hr)
    · exact e.elim

/-! ### The program -/

/-- The input starts with a header and its magic. -/
def HasMagic (stdin : List U8) : Prop := 4 ≤ stdin.length ∧ stdin.take 2 = [0xB1, 0x5A]

/-- The version is supported. -/
def HasVersion (stdin : List U8) : Prop := ∃ v, stdin[2]? = some v ∧ 2 ≤ v.toNat ∧ v.toNat ≤ 4

/-- The input is no longer than a packet may be, and has the records. -/
def WellFormed (stdin : List U8) (recs : List Rec) : Prop :=
  stdin.length ≤ 4096 ∧ Records stdin recs

/-- What the program is to print. -/
inductive MainSpec (stdin : List U8) : Printed → Prop
  | badMagic : ¬ HasMagic stdin → MainSpec stdin ⟨py "bad magic\n", 1⟩
  | badVersion : HasMagic stdin → ¬ HasVersion stdin → MainSpec stdin ⟨py "bad version\n", 1⟩
  | truncate : HasMagic stdin → HasVersion stdin → (¬ ∃ recs, WellFormed stdin recs) →
      MainSpec stdin ⟨py "truncate\n", 2⟩
  | summary (v : U8) (recs : List Rec) : HasMagic stdin → HasVersion stdin →
      stdin[2]? = some v → WellFormed stdin recs →
      MainSpec stdin ⟨pkSummary (v.toNat * 16) (extractRecords pkTagSum recs)
        (extractRecords pkTagXor recs) (fnv (stdin.drop 4)), 0⟩

theorem magic_iff {m0 m1 : U8} :
    (m0.setWidth 32 ||| m1.setWidth 32 <<< 8 : U32) = 0x5AB1 ↔ m0 = 0xB1 ∧ m1 = 0x5A := by
  rw [← BitVec.toNat_inj, toNat_le16, ← BitVec.toNat_inj, ← BitVec.toNat_inj]
  have h0 := m0.isLt
  have h1 := m1.isLt
  have e0 : (0x5AB1 : U32).toNat = 0x5AB1 := rfl
  have e1 : (0xB1 : U8).toNat = 0xB1 := rfl
  have e2 : (0x5A : U8).toNat = 0x5A := rfl
  -- the two bytes of the word do not overlap, so they are its digits in base 256
  omega

/-- The records of an input that is no longer than a packet, by one call of the helper. -/
theorem pkExtract_of_size {stdin : List U8} (h4 : 4 ≤ stdin.length) (hle : stdin.length ≤ 4096)
    {tag : ℤ} (htag : tag ∈ [pkTagSum, pkTagXor]) {fuel : ℕ} (hfuel : 1024 < fuel) :
    Ends (pkExtract fuel (Memory.ofBytes stdin) stdin.length tag) fun r =>
      (r.errno = 0 ↔ ∃ recs, Records stdin recs) ∧
        (r.errno = 0 → ∀ recs, Records stdin recs → r.ret = extractRecords tag recs) := by
  obtain ⟨r, hr, hspec⟩ := pkExtract_walk (show stdin.length = (stdin.length : ℤ).toNat by simp)
    (Memory.holds_ofBytes stdin) hfuel htag ⟨by omega, by omega⟩
  refine ⟨r, hr, hspec.accepts.trans ⟨fun h => h.2.2.2, fun h => ?_⟩, hspec.value⟩
  exact ⟨htag, by omega, by omega, h⟩

/-- **The program.**  Every input is answered by the first check that fails, or by the summary
of its records. -/
theorem pkMain_ends (stdin : List U8) {fuel : ℕ} (hfuel : 4096 < fuel) :
    Ends (pkMain fuel stdin) (MainSpec stdin) := by
  have htoNat : pkMaxPacket.toNat + 1 = 4097 := rfl
  rw [pkMain, htoNat]
  dsimp only
  -- `fread` asks for one byte more than a packet has, to see that the input is longer
  set read := stdin.take 4097 with hread
  have hlen : read.length = min 4097 stdin.length := by rw [hread, List.length_take]
  by_cases h4 : stdin.length < 4
  · rw [if_pos (by omega)]
    exact .done (.badMagic fun h => by have := h.1; omega)
  rw [if_neg (by omega)]
  have hget : ∀ i < 4, read[i]? = stdin[i]? := fun i hi => List.getElem?_take_of_lt (by omega)
  obtain ⟨m0, m1, v, c, rest, rfl⟩ : ∃ m0 m1 v c rest, stdin = m0 :: m1 :: v :: c :: rest := by
    rcases stdin with - | ⟨m0, - | ⟨m1, - | ⟨v, - | ⟨c, rest⟩⟩⟩⟩
    all_goals simp_all
  have hmem : (Memory.ofBytes read).Holds read := Memory.holds_ofBytes read
  have h0 : Memory.ofBytes read 0 = some m0 := hmem 0 m0 (hget 0 (by omega))
  have h1 : Memory.ofBytes read 1 = some m1 := hmem 1 m1 (hget 1 (by omega))
  have h2 : Memory.ofBytes read 2 = some v := hmem 2 v (hget 2 (by omega))
  rw [load_of_some h0, done_bind, load_of_some h1, done_bind]
  by_cases hmagic : (m0.setWidth 32 ||| m1.setWidth 32 <<< 8 : U32) = 0x5AB1
  swap
  · rw [if_pos hmagic]
    refine .done (.badMagic fun h => hmagic (magic_iff.mpr ?_))
    simpa using h.2
  rw [if_neg (not_not.mpr hmagic), load_of_some h2, done_bind]
  obtain ⟨rfl, rfl⟩ := magic_iff.mp hmagic
  have hasMagic : HasMagic (0xB1 :: 0x5A :: v :: c :: rest) := ⟨by omega, rfl⟩
  by_cases hver : 2 ≤ v.toNat ∧ v.toNat ≤ 4
  swap
  · have hok : pkVersionOk v.toNat = .done 0 := by
      rw [pkVersionOk]
      split_ifs
      · rfl
      · rfl
      · omega
    rw [hok, done_bind, if_pos rfl]
    refine .done (.badVersion hasMagic ?_)
    rintro ⟨v', hv', hrange⟩
    obtain rfl : v = v' := by simpa using hv'
    exact hver hrange
  have hasVersion : HasVersion (0xB1 :: 0x5A :: v :: c :: rest) := ⟨v, rfl, hver⟩
  have hok : pkVersionOk v.toNat = .done (v.toNat * 16) := by
    rw [pkVersionOk, if_neg (by omega), if_neg (by omega), signed_of_range]
    constructor <;> omega
  rw [hok, done_bind, if_neg (by omega)]
  set stdin : List U8 := 0xB1 :: 0x5A :: v :: c :: rest with hstdin
  -- from here on the input is read as a whole, unless it is longer than a packet
  by_cases hlong : 4096 < stdin.length
  · have hlong' : pkMaxPacket < (read.length : ℤ) := by
      simp only [pkMaxPacket]
      omega
    rw [if_pos hlong']
    refine .done (.truncate hasMagic hasVersion ?_)
    rintro ⟨recs, h, -⟩
    omega
  have hshort : ¬ pkMaxPacket < (read.length : ℤ) := by
    simp only [pkMaxPacket]
    omega
  have hall : read = stdin := by rw [hread, List.take_of_length_le (by omega)]
  rw [if_neg hshort, hall]
  -- both tags walk the same records, so they refuse the same inputs
  refine (pkExtract_of_size (by omega) (by omega) (by decide) (by omega)).bind fun a ha => ?_
  refine (pkExtract_of_size (by omega) (by omega) (by decide) (by omega)).bind fun b hb => ?_
  by_cases hrecs : ∃ recs, Records stdin recs
  · obtain ⟨recs, h⟩ := hrecs
    have hnone : ¬ (a.errno ≠ 0 ∨ b.errno ≠ 0) := by
      have := ha.1.mpr ⟨recs, h⟩
      have := hb.1.mpr ⟨recs, h⟩
      tauto
    rw [if_neg hnone]
    refine (pkChecksum_ends rfl (by omega) (Memory.holds_ofBytes stdin) hfuel).bind fun x hx => ?_
    rw [hx, ha.2 (ha.1.mpr ⟨recs, h⟩) recs h, hb.2 (hb.1.mpr ⟨recs, h⟩) recs h]
    exact .done (.summary v recs hasMagic hasVersion rfl ⟨by omega, h⟩)
  · have hsome : a.errno ≠ 0 ∨ b.errno ≠ 0 := .inl fun h => hrecs (ha.1.mp h)
    rw [if_pos hsome]
    refine .done (.truncate hasMagic hasVersion ?_)
    rintro ⟨recs, -, h⟩
    exact hrecs ⟨recs, h⟩

/-! ### The specification leaves no choice -/

/-- An input has its records in one way only. -/
theorem Records.unique {buf : List U8} {recs recs' : List Rec} (h : Records buf recs)
    (h' : Records buf recs') : recs = recs' := by
  obtain ⟨c, hc, hcount⟩ := h.count
  obtain ⟨c', hc', hcount'⟩ := h'.count
  obtain rfl : c = c' := Option.some.inj (hc.symm.trans hc')
  obtain ⟨more, rfl, -⟩ := records_split h.short h'.short (by omega)
    (h'.bytes.symm.trans (h.bytes.trans (List.append_nil _).symm))
  have hnil : more = [] := by
    rw [List.length_append] at hcount'
    exact List.length_eq_zero_iff.mp (by omega)
  rw [hnil, List.append_nil]

theorem MainSpec.unique {stdin : List U8} {p q : Printed} (h : MainSpec stdin p)
    (h' : MainSpec stdin q) : p = q := by
  cases h with
  | badMagic hno =>
      cases h' with
      | badMagic => rfl
      | badVersion hm => exact absurd hm hno
      | truncate hm => exact absurd hm hno
      | summary _ _ hm => exact absurd hm hno
  | badVersion hm hno =>
      cases h' with
      | badMagic hno' => exact absurd hm hno'
      | badVersion => rfl
      | truncate _ hv => exact absurd hv hno
      | summary _ _ _ hv => exact absurd hv hno
  | truncate hm hv hno =>
      cases h' with
      | badMagic hno' => exact absurd hm hno'
      | badVersion _ hno' => exact absurd hv hno'
      | truncate => rfl
      | summary _ recs _ _ _ hw => exact absurd ⟨recs, hw⟩ hno
  | summary v recs hm hv hget hw =>
      cases h' with
      | badMagic hno => exact absurd hm hno
      | badVersion _ hno => exact absurd hv hno
      | truncate _ _ hno => exact absurd ⟨recs, hw⟩ hno
      | summary v' recs' _ _ hget' hw' =>
          obtain rfl : v = v' := Option.some.inj (hget.symm.trans hget')
          rw [hw.2.unique hw'.2]

/-- **The program computes its specification**: on every input it ends without undefined behaviour,
with just what it is to print; and the records that this speaks of are the only ones of the input. -/
theorem pkMain_exact (stdin : List U8) {fuel : ℕ} (hfuel : 4096 < fuel) :
    (∃ p, pkMain fuel stdin = .done p) ∧ (∀ p, pkMain fuel stdin = .done p ↔ MainSpec stdin p) ∧
      ∀ recs recs', WellFormed stdin recs → WellFormed stdin recs' → recs = recs' := by
  obtain ⟨q, hq, hspec⟩ := pkMain_ends stdin hfuel
  refine ⟨⟨q, hq⟩, fun p => ?_, fun recs recs' h h' => h.2.unique h'.2⟩
  rw [hq]
  constructor
  · intro h
    cases h
    exact hspec
  · intro h
    rw [hspec.unique h]

theorem pkMain_exact_one : pkMain 4097 onePacket =
      .done ⟨pkSummary 48 6 0xA0A0A0A0 (fnv [0x20, 1, 0, 5]), 0⟩ ∧
    ∀ recs, WellFormed onePacket recs → recs = [⟨0x20, [5]⟩] := by
  have hrecs : Records onePacket [⟨0x20, [5]⟩] :=
    { count := ⟨1, rfl, rfl⟩
      short := by simp
      bytes := by decide }
  have hwell : WellFormed onePacket [⟨0x20, [5]⟩] := ⟨by decide, hrecs⟩
  obtain ⟨-, hmain, hunique⟩ := pkMain_exact onePacket (show 4096 < 4097 by decide)
  refine ⟨(hmain _).mpr ?_, fun recs h => hunique recs _ h hwell⟩
  exact .summary 3 [⟨0x20, [5]⟩] ⟨by decide, rfl⟩ ⟨3, rfl, by decide⟩ rfl hwell

end ReSchema
