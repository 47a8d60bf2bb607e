/-
ReSchema/X86/Region.lean

Regions of memory.

A region is some bytes at an address.  Addresses are integers here, so that the
arithmetic of a layout is that of ordinary intervals; a region that fits does not
wrap around.  A store makes the core hold its region and keeps all the regions
beside it, and a load gives the bytes of a region that is held.
-/
import ReSchema.X86.Machine

namespace X86

/-- Some bytes at an address. -/
structure Region where
  start : ℤ
  bytes : List UInt8

/-- The first address behind a region. -/
def Region.stop (r : Region) : ℤ := r.start + r.bytes.length

/-- The addresses of a region. -/
def Region.addresses (r : Region) : Set ℤ := Set.Ico r.start r.stop

/-- The region does not wrap around. -/
structure Region.Fits (r : Region) : Prop where
  start : 0 ≤ r.start
  stop : r.stop ≤ 2 ^ 64

/-- The region lies beside another one. -/
def Region.Beside (r r' : Region) : Prop := r.stop ≤ r'.start ∨ r'.stop ≤ r.start

/-- The memory has the bytes of the region at its addresses. -/
def Core.Holds (c : Core) (r : Region) : Prop :=
  ∀ i : ℕ, ∀ b ∈ r.bytes[i]?, c.mem (BitVec.ofInt 64 (r.start + i)) = b

/-- All the addresses of an interval are mapped. -/
def MappedIn (mapped : U64 → Bool) (lo hi : ℤ) : Prop :=
  ∀ a, lo ≤ a → a < hi → mapped (BitVec.ofInt 64 a) = true

theorem Region.Beside.disjoint {r r' : Region} (h : r.Beside r') :
    Disjoint r.addresses r'.addresses := by
  rw [Set.disjoint_left]
  rintro a ⟨hlo, hhi⟩ ⟨hlo', hhi'⟩
  rcases h with h | h <;> omega

theorem MappedIn.mono {mapped : U64 → Bool} {lo lo' hi hi' : ℤ} (h : MappedIn mapped lo hi)
    (hlo : lo ≤ lo') (hhi : hi' ≤ hi) : MappedIn mapped lo' hi' :=
  fun a ha ha' => h a (hlo.trans ha) (ha'.trans_le hhi)

/-- The memory is all that matters. -/
theorem Core.Holds.of_mem_eq {c c' : Core} {r : Region} (h : c.Holds r) (hmem : c'.mem = c.mem) :
    c'.Holds r := by
  intro i b hb
  rw [hmem]
  exact h i b hb

/-- The address with an offset. -/
theorem ofInt_add_ofNat (a : ℤ) (i : ℕ) :
    BitVec.ofInt 64 a + BitVec.ofNat 64 i = BitVec.ofInt 64 (a + i) := by
  rw [BitVec.ofInt_add, BitVec.ofInt_natCast]

/-- The distance of two addresses. -/
theorem toNat_ofInt_sub (a b : ℤ) :
    (BitVec.ofInt 64 b - BitVec.ofInt 64 a).toNat = ((b - a) % 2 ^ 64).toNat := by
  have hsub : BitVec.ofInt 64 b - BitVec.ofInt 64 a = BitVec.ofInt 64 (b - a) := by
    rw [BitVec.sub_eq_add_neg, ← BitVec.ofInt_neg, ← BitVec.ofInt_add, Int.sub_eq_add_neg]
  rw [hsub, BitVec.toNat_ofInt]
  rfl

section Access

variable {mapped : U64 → Bool} {c : Core} {r : Region}

theorem mapped_offsets (h : MappedIn mapped r.start r.stop) :
    (List.range r.bytes.length).all
      (fun i => mapped (BitVec.ofInt 64 r.start + BitVec.ofNat 64 i)) = true := by
  rw [List.all_eq_true]
  intro i hi
  rw [ofInt_add_ofNat]
  have hi' := List.mem_range.mp hi
  exact h _ (by omega) (by rw [Region.stop]; omega)

/-- What a load of mapped addresses gives. -/
theorem load_of_mapped (c : Core) {a : ℤ} {n : ℕ} (hmapped : MappedIn mapped a (a + n)) :
    c.load mapped (BitVec.ofInt 64 a) n =
      some ((List.range n).map fun i : ℕ => c.mem (BitVec.ofInt 64 (a + i))) := by
  simp only [Core.load, ofInt_add_ofNat]
  apply if_pos
  rw [List.all_eq_true]
  intro i hi
  have hi' := List.mem_range.mp hi
  exact hmapped _ (by omega) (by omega)

/-- **Load.**  A region that is held is read as it stands. -/
theorem map_mem_of_holds (h : c.Holds r) :
    (List.range r.bytes.length).map (fun i : ℕ => c.mem (BitVec.ofInt 64 (r.start + i))) =
      r.bytes := by
  apply List.ext_getElem
  · simp
  · intro i hi hi'
    rw [List.getElem_map, List.getElem_range]
    exact h i _ (List.getElem?_eq_getElem hi')

/-- **Store.**  The region stored is held, and those beside it stay as they are. -/
theorem store_holds (c : Core) (hmapped : MappedIn mapped r.start r.stop) (hfits : r.Fits) :
    ∃ c', c.store mapped (BitVec.ofInt 64 r.start) r.bytes = some c' ∧ c'.regs = c.regs ∧
      c'.Holds r ∧ ∀ r' : Region, r'.Fits → r'.Beside r → c.Holds r' → c'.Holds r' := by
  refine ⟨_, if_pos (mapped_offsets hmapped), rfl, ?_, ?_⟩
  · intro i b hb
    show (r.bytes[_]?).getD _ = b
    have hoffset : (BitVec.ofInt 64 (r.start + i) - BitVec.ofInt 64 r.start).toNat = i := by
      rw [toNat_ofInt_sub]
      have hi : i < r.bytes.length := (List.getElem?_eq_some_iff.mp hb).1
      have hstart := hfits.start
      have hstop := hfits.stop
      rw [Region.stop] at hstop
      omega
    rw [hoffset, hb, Option.getD_some]
  · intro r' hfits' hbeside h i b hb
    show (r.bytes[_]?).getD _ = b
    -- the offset of an address beside the region is too large, also when it wraps around
    have hoffset : r.bytes.length ≤
        (BitVec.ofInt 64 (r'.start + i) - BitVec.ofInt 64 r.start).toNat := by
      rw [toNat_ofInt_sub]
      have hi : i < r'.bytes.length := (List.getElem?_eq_some_iff.mp hb).1
      have hstart := hfits.start
      have hstop := hfits.stop
      have hstart' := hfits'.start
      have hstop' := hfits'.stop
      rw [Region.Beside] at hbeside
      rw [Region.stop] at hstop hstop' hbeside
      rw [Region.stop] at hbeside
      omega
    rw [List.getElem?_eq_none hoffset, Option.getD_none]
    exact h i b hb

end Access

end X86
