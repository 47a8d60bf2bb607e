/-
ReSchema/Calc.lean

The calculator seed (`corpus/seeds/calc.c`).

Its functions are the arithmetic of the function tasks.  Every intermediate of
`sum_range` is clamped, and yet not all calls are defined: the counter may not
pass the last `int`, and a clamped sum may not be added to an extreme counter.
`SumDefined` is the exact region; outside of it what the original does is what
its compiler made of it.
-/
import ReSchema.C.Store

namespace ReSchema

open C

/-! ### The program -/

/-- `clamp_i32(v, lo, hi)`. -/
def clampI32 (v lo hi : ℤ) : ℤ := if v < lo then lo else if hi < v then hi else v

/-- `sum_range(lo, hi)`. -/
def sumRange (fuel : ℕ) (lo hi : ℤ) : Exec ℤ :=
  whileLoop (ρ := Empty) (fun s : ℤ × ℤ => s.1 ≤ hi)
    (fun s => do
      let t ← signed (s.2 + s.1)
      let i ← signed (s.1 + 1)
      pure (.inl (i, clampI32 t (-1000) 1000)))
    fuel (lo, 0) >>= fun
    | .inl s => .done s.2

/-- One round of the loop in `scale_buf`. -/
def scaleCell (factor : ℤ) (s : ℤ × (ℤ → Option ℤ)) :
    Exec ((ℤ × (ℤ → Option ℤ)) ⊕ Empty) := do
  let v ← read s.2 s.1
  let scaled ← signed (v * factor)
  let mem ← write s.2 s.1 (clampI32 scaled (-100) 100)
  let i ← signed (s.1 + 1)
  pure (.inl (i, mem))

/-- `scale_buf(buf, n, factor)`, with the memory afterwards. -/
def scaleBuf (fuel : ℕ) (mem : ℤ → Option ℤ) (n factor : ℤ) : Exec (ℤ → Option ℤ) :=
  whileLoop (fun s : ℤ × (ℤ → Option ℤ) => s.1 < n) (scaleCell factor) fuel (0, mem) >>= fun
    | .inl s => .done s.2

/-! ### The clamped sum -/

/-- A value outside of an interval is moved to the end that it lies beyond. -/
theorem clampI32_eq (v : ℤ) {lo hi : ℤ} (h : lo ≤ hi) :
    clampI32 v lo hi = max lo (min v hi) := by
  unfold clampI32
  split_ifs <;> omega

theorem clampI32_range (v : ℤ) {lo hi : ℤ} (h : lo ≤ hi) :
    lo ≤ clampI32 v lo hi ∧ clampI32 v lo hi ≤ hi := by
  rw [clampI32_eq v h]
  omega

/-- The sum of `n` numbers from `i` on, clamped after each. -/
def clampedSum : ℕ → ℤ → ℤ → ℤ
  | 0, _, s => s
  | n + 1, i, s => clampedSum n (i + 1) (max (-1000) (min (s + i) 1000))

/-- The sums that stay in the range of `int`. -/
def SumDefined (lo hi : ℤ) : Prop :=
  hi < lo ∨ (lo = hi ∧ hi < 2 ^ 31 - 1) ∨
    (lo < hi ∧ -2 ^ 31 + 999 ≤ lo ∧ hi ≤ 2 ^ 31 - 1 - 1000)

instance (lo hi : ℤ) : Decidable (SumDefined lo hi) := by unfold SumDefined; infer_instance

/-- The same from a state inside the loop. -/
def SumDefinedFrom (hi i s : ℤ) : Prop :=
  hi < i ∨ (IntRange (s + i) ∧ hi < 2 ^ 31 - 1 ∧
    (i = hi ∨ (-2 ^ 31 + 999 ≤ i ∧ hi ≤ 2 ^ 31 - 1 - 1000)))

instance (hi i s : ℤ) : Decidable (SumDefinedFrom hi i s) := by
  unfold SumDefinedFrom; infer_instance

theorem sumDefinedFrom_start {lo hi : ℤ} (hlo : IntRange lo) :
    SumDefinedFrom hi lo 0 ↔ SumDefined lo hi := by
  unfold SumDefinedFrom SumDefined
  unfold IntRange at *
  omega

/-- The region from one state and from the next.  A sum next to an end of the range has been
clamped to that side. -/
theorem sumDefinedFrom_step {hi i s : ℤ} (hs : -1000 ≤ s ∧ s ≤ 1000) (hi' : i ≤ hi)
    (hhi : IntRange hi) : SumDefinedFrom hi i s ↔ IntRange (s + i) ∧ IntRange (i + 1) ∧
      SumDefinedFrom hi (i + 1) (clampI32 (s + i) (-1000) 1000) := by
  unfold SumDefinedFrom clampI32
  unfold IntRange at *
  split_ifs <;> omega

/-- **Where `sum_range` is defined, and what it returns there.** -/
theorem sumRange_exact {lo hi : ℤ} (hlo : IntRange lo) (hhi : IntRange hi) {fuel : ℕ}
    (hfuel : (hi + 1 - lo).toNat < fuel) : sumRange fuel lo hi =
      if SumDefined lo hi then .done (clampedSum (hi + 1 - lo).toNat lo 0) else .undefined := by
  -- from any counter and sum on, the loop is the clamped sum of what is left
  have hloop := whileLoop_eq (ρ := Empty) (fun s : ℤ × ℤ => s.1 ≤ hi)
    (fun s => do
      let t ← signed (s.2 + s.1)
      let i ← signed (s.1 + 1)
      pure (.inl (i, clampI32 t (-1000) 1000)))
    (fun s => -1000 ≤ s.2 ∧ s.2 ≤ 1000) (fun s => (hi + 1 - s.1).toNat)
    (fun s => if SumDefinedFrom hi s.1 s.2 then
      .done (.inl (max s.1 (hi + 1), clampedSum (hi + 1 - s.1).toNat s.1 s.2)) else .undefined)
    ?_ ?_ ?_ (s := (lo, 0)) (by norm_num) hfuel
  · rw [sumRange, hloop]
    simp only [sumDefinedFrom_start hlo]
    split_ifs <;> rfl
  · rintro ⟨i, s⟩ hs htest
    have hge : ¬ i ≤ hi := of_decide_eq_false htest
    have hdef : SumDefinedFrom hi i s := .inl (by omega)
    have hmax : max i (hi + 1) = i := max_eq_left (by omega)
    have hzero : (hi + 1 - i).toNat = 0 := by omega
    simp only [hdef, if_true, hmax, hzero, clampedSum]
  · rintro ⟨i, s⟩ hs htest
    -- the addition overflows, or the counter does, or the loop goes on
    have hle : i ≤ hi := of_decide_eq_true htest
    have hstep := sumDefinedFrom_step hs hle hhi
    dsimp only at hs ⊢
    by_cases hsum : IntRange (s + i)
    · by_cases hnext : IntRange (i + 1)
      · rw [signed_of_range hsum, done_bind, signed_of_range hnext, done_bind, pure_eq_done, done_bind]
        have hcount : (hi + 1 - i).toNat = (hi + 1 - (i + 1)).toNat + 1 := by omega
        have hmax : max i (hi + 1) = max (i + 1) (hi + 1) := by omega
        have hclamp := clampI32_eq (s + i) (show (-1000 : ℤ) ≤ 1000 by decide)
        simp only [Exec.resume, hstep, hsum, hnext, true_and, hcount, hmax, clampedSum, hclamp]
      · rw [signed_of_range hsum, done_bind, signed_of_not_range hnext]
        rw [if_neg fun h => hnext (hstep.mp h).2.1]
        rfl
    · rw [signed_of_not_range hsum, if_neg fun h => hsum (hstep.mp h).1]
      rfl
  · rintro ⟨i, s⟩ ⟨i', s'⟩ hs htest hbody
    have hle : i ≤ hi := of_decide_eq_true htest
    dsimp only at hbody ⊢
    obtain ⟨t, ht, hbody⟩ := bind_eq_done.mp hbody
    obtain ⟨j, hj, hbody⟩ := bind_eq_done.mp hbody
    obtain ⟨rfl, rfl⟩ := Prod.mk.inj (Sum.inl.inj (Exec.done.inj hbody))
    obtain ⟨-, rfl⟩ := signed_eq_done.mp hj
    exact ⟨clampI32_range t (by decide), by omega⟩

/-- The sum of `main`, and one whose counter leaves `int`. -/
theorem sumRange_main :
    sumRange 20 (-5) 12 = .done 63 ∧ sumRange 20 (2 ^ 31 - 2) (2 ^ 31 - 1) = .undefined := by
  constructor
  · rw [sumRange_exact (by decide) (by decide) (by decide), if_pos (by decide)]
    decide +kernel
  · rw [sumRange_exact (by decide) (by decide) (by decide), if_neg (by decide)]

/-! ### The scaled buffer -/

/-- The cells from `i` on can be read and scaled. -/
def Scalable (n factor i : ℤ) (mem : ℤ → Option ℤ) : Prop :=
  ∀ j, i ≤ j → j < n → ∃ v, mem j = some v ∧ IntRange (v * factor)

/-- The cells scaled and clamped. -/
def scaled (n factor i : ℤ) (mem : ℤ → Option ℤ) : ℤ → Option ℤ :=
  mapRange (fun _ v => max (-100) (min (v * factor) 100)) i n mem

theorem scalable_step (factor : ℤ) {n i : ℤ} (hi : i < n) {mem : ℤ → Option ℤ} {v : ℤ}
    (hv : mem i = some v) (w : ℤ) : Scalable n factor i mem ↔
      IntRange (v * factor) ∧ Scalable n factor (i + 1) (Function.update mem i (some w)) := by
  constructor
  · intro h
    obtain ⟨v', hv', hrange⟩ := h i le_rfl hi
    obtain rfl := Option.some.inj (hv.symm.trans hv')
    refine ⟨hrange, fun j hj hjn => ?_⟩
    rw [Function.update_of_ne (by omega)]
    exact h j (by omega) hjn
  · rintro ⟨hrange, h⟩ j hj hjn
    rcases eq_or_ne j i with rfl | hne
    · exact ⟨v, hv, hrange⟩
    · obtain ⟨v', hv', hrange'⟩ := h j (by omega) hjn
      rw [Function.update_of_ne hne] at hv'
      exact ⟨v', hv', hrange'⟩

theorem scaleCell_eq_done {factor i i' : ℤ} {mem mem' : ℤ → Option ℤ}
    (h : scaleCell factor (i, mem) = .done (.inl (i', mem'))) : i' = i + 1 := by
  obtain ⟨v, -, h⟩ := bind_eq_done.mp h
  obtain ⟨t, -, h⟩ := bind_eq_done.mp h
  obtain ⟨m, -, h⟩ := bind_eq_done.mp h
  obtain ⟨j, hj, h⟩ := bind_eq_done.mp h
  obtain ⟨rfl, -⟩ := Prod.mk.inj (Sum.inl.inj (Exec.done.inj h))
  exact (signed_eq_done.mp hj).2.symm

/-- **Where `scale_buf` is defined, and what it leaves there.** -/
theorem scaleBuf_exact {mem : ℤ → Option ℤ} {n factor : ℤ} (hn : IntRange n) {fuel : ℕ}
    (hfuel : n.toNat < fuel) :
    (Scalable n factor 0 mem → scaleBuf fuel mem n factor = .done (scaled n factor 0 mem)) ∧
      (¬ Scalable n factor 0 mem → scaleBuf fuel mem n factor = .undefined) := by
  classical
  have hmeasure : (n - 0).toNat < fuel := by rwa [sub_zero]
  -- from any index and buffer on, the cells that are left are scaled
  have hloop := whileLoop_eq (fun s : ℤ × (ℤ → Option ℤ) => s.1 < n) (scaleCell factor)
    (fun s => 0 ≤ s.1) (fun s => (n - s.1).toNat)
    (fun s => if Scalable n factor s.1 s.2 then .done (.inl (max s.1 n, scaled n factor s.1 s.2))
      else .undefined) ?_ ?_ ?_ (s := (0, mem)) le_rfl hmeasure
  · constructor
    · intro h
      rw [scaleBuf, hloop, if_pos h]
      rfl
    · intro h
      rw [scaleBuf, hloop, if_neg h]
      rfl
  · rintro ⟨i, mem⟩ hi htest
    have hge : ¬ i < n := of_decide_eq_false htest
    have hnone : Scalable n factor i mem := fun j hj hjn => absurd hjn (by omega)
    have hmax : max i n = i := max_eq_left (by omega)
    simp only [hnone, if_true, hmax, scaled, mapRange_empty _ (not_lt.mp hge)]
  · rintro ⟨i, mem⟩ hi htest
    have hlt : i < n := of_decide_eq_true htest
    dsimp only at hi ⊢
    rw [scaleCell]
    -- an index past the buffer is read, or the product overflows, or the loop goes on
    rcases hv : mem i with - | v
    · rw [read_of_none hv, if_neg]
      · rfl
      · intro h
        obtain ⟨v, hv', -⟩ := h i le_rfl hlt
        rw [hv] at hv'
        cases hv'
    have hstep := scalable_step factor hlt hv (clampI32 (v * factor) (-100) 100)
    rw [read_of_some hv, done_bind]
    by_cases hrange : IntRange (v * factor)
    · have hnext : IntRange (i + 1) := by
        unfold IntRange at *
        omega
      rw [signed_of_range hrange, done_bind, write_of_some hv, done_bind, signed_of_range hnext,
        done_bind, pure_eq_done, done_bind]
      have hmax : max i n = max (i + 1) n := by omega
      have hcells := mapRange_update (fun _ v => max (-100) (min (v * factor) 100)) hlt hv
      have hclamp := clampI32_eq (v * factor) (show (-100 : ℤ) ≤ 100 by decide)
      simp only [Exec.resume, hstep, hrange, true_and, hmax, scaled, hcells, hclamp]
    · rw [signed_of_not_range hrange, if_neg fun h => hrange (hstep.mp h).1]
      rfl
  · rintro ⟨i, mem⟩ ⟨i', mem'⟩ hi htest hbody
    have hlt : i < n := of_decide_eq_true htest
    obtain rfl := scaleCell_eq_done hbody
    dsimp only at hi ⊢
    exact ⟨by omega, by omega⟩

/-- The buffer of `main`. -/
def mainBuf : ℤ → Option ℤ := fun i => if 0 ≤ i ∧ i < 4 then some (i + 1) else none

/-- Scaled as in `main`, and by a factor that takes the second cell out of `int`. -/
theorem scaleBuf_main : scaleBuf 5 mainBuf 4 3 = .done (scaled 4 3 0 mainBuf) ∧
    scaleBuf 5 mainBuf 4 (2 ^ 31 - 1) = .undefined := by
  have hcell : ∀ j, 0 ≤ j → j < 4 → mainBuf j = some (j + 1) := fun j h0 h4 => if_pos ⟨h0, h4⟩
  constructor
  · refine (scaleBuf_exact (by decide) (by decide)).1 fun j h0 h4 => ⟨j + 1, hcell j h0 h4, ?_⟩
    unfold IntRange
    omega
  · refine (scaleBuf_exact (by decide) (by decide)).2 fun h => ?_
    obtain ⟨v, hv, hrange⟩ := h 1 (by decide) (by decide)
    obtain rfl := Option.some.inj ((hcell 1 (by decide) (by decide)).symm.trans hv)
    exact absurd hrange (by decide)

end ReSchema
