/-
ReSchema/C/Store.lean

Writes, and loops followed exactly.

`C.Exec` has the rule for loops that come to an end.  To say when a loop has
undefined behaviour as well, `whileLoop_eq` compares it with an answer given for
every state: if the answer unfolds as the loop does, and every round goes down,
then it is what the loop does.

A memory gives each index its value; a read or a write where it has none is
undefined.  `StringAt` is a string in the sense of C, and `forString` the loop over
one, with the exact condition under which it comes to an end.
-/
import ReSchema.C.Exec

namespace C

/-! ### Outcomes -/

theorem bind_eq_done {α β : Type} {x : Exec α} {f : α → Exec β} {b : β} :
    (x >>= f) = .done b ↔ ∃ a, x = .done a ∧ f a = .done b := by
  constructor
  · intro h
    rcases x with a | - | -
    · exact ⟨a, rfl, h⟩
    · cases h
    · cases h
  · rintro ⟨a, rfl, h⟩
    exact h

theorem signed_of_not_range {i : ℤ} (h : ¬ IntRange i) : signed i = .undefined := if_neg h

theorem signed_eq_done {i j : ℤ} : signed i = .done j ↔ IntRange i ∧ i = j := by
  rw [signed]
  split_ifs with h
  · simp [h]
  · simp [h]

/-! ### Loops, exactly -/

section Loops

variable {σ ρ : Type}

/-- What a loop does after one round. -/
def Exec.resume (R : σ → Exec (σ ⊕ ρ)) : σ ⊕ ρ → Exec (σ ⊕ ρ)
  | .inl s => R s
  | .inr v => .done (.inr v)

/-- **The exact rule for loops.**  An answer that unfolds as the loop does is its outcome. -/
theorem whileLoop_eq (test : σ → Bool) (body : σ → Exec (σ ⊕ ρ)) (Inv : σ → Prop)
    (measure : σ → ℕ) (R : σ → Exec (σ ⊕ ρ))
    (stop : ∀ s, Inv s → test s = false → R s = .done (.inl s))
    (round : ∀ s, Inv s → test s = true → R s = body s >>= Exec.resume R)
    (down : ∀ s s', Inv s → test s = true → body s = .done (.inl s') →
      Inv s' ∧ measure s' < measure s)
    {fuel : ℕ} {s : σ} (hs : Inv s) (hfuel : measure s < fuel) :
    whileLoop test body fuel s = R s := by
  induction fuel generalizing s with
  | zero => exact absurd hfuel (Nat.not_lt_zero _)
  | succ fuel ih =>
      rw [whileLoop]
      by_cases ht : test s = true
      · rw [if_pos ht, round s hs ht]
        rcases hbody : body s with r | - | -
        · rcases r with s' | v
          · obtain ⟨hs', hlt⟩ := down s s' hs ht hbody
            exact ih hs' (by omega)
          · rfl
        · rfl
        · rfl
      · rw [if_neg ht, stop s hs (Bool.eq_false_iff.mpr ht)]

end Loops

/-! ### Memory -/

section Store

variable {α : Type}

/-- A read. -/
def read (mem : ℤ → Option α) (i : ℤ) : Exec α :=
  match mem i with
  | some v => .done v
  | none => .undefined

/-- A write. -/
def write (mem : ℤ → Option α) (i : ℤ) (v : α) : Exec (ℤ → Option α) :=
  match mem i with
  | some _ => .done (Function.update mem i (some v))
  | none => .undefined

variable {mem : ℤ → Option α} {i : ℤ} {v : α}

theorem read_of_some (h : mem i = some v) : read mem i = .done v := by rw [read, h]

theorem read_of_none (h : mem i = none) : read mem i = .undefined := by rw [read, h]

theorem write_of_some (h : mem i = some v) (w : α) :
    write mem i w = .done (Function.update mem i (some w)) := by rw [write, h]

end Store

/-- The memory with the cells from `lo` to below `hi` changed. -/
def mapRange {α : Type} (f : ℤ → α → α) (lo hi : ℤ) (mem : ℤ → Option α) : ℤ → Option α :=
  fun i => if lo ≤ i ∧ i < hi then (mem i).map (f i) else mem i

theorem mapRange_empty {α : Type} (f : ℤ → α → α) {lo hi : ℤ} (h : hi ≤ lo)
    (mem : ℤ → Option α) : mapRange f lo hi mem = mem := by
  funext i
  rw [mapRange, if_neg (by omega)]

/-- One cell first, and then the others. -/
theorem mapRange_update {α : Type} (f : ℤ → α → α) {lo hi : ℤ} (h : lo < hi)
    {mem : ℤ → Option α} {v : α} (hv : mem lo = some v) :
    mapRange f (lo + 1) hi (Function.update mem lo (some (f lo v))) = mapRange f lo hi mem := by
  funext i
  rw [mapRange, mapRange]
  rcases eq_or_ne i lo with rfl | hi'
  · rw [if_neg (by omega), if_pos (by omega), Function.update_self, hv, Option.map_some]
  · rw [Function.update_of_ne hi']
    by_cases hin : lo ≤ i ∧ i < hi
    · rw [if_pos (by omega), if_pos hin]
    · rw [if_neg (by omega), if_neg hin]

/-- One cell last. -/
theorem update_mapRange {α : Type} (f : ℤ → α → α) {lo hi : ℤ} (h : lo ≤ hi) {mem : ℤ → Option α}
    {v : α} (hv : mem hi = some v) :
    Function.update (mapRange f lo hi mem) hi (some (f hi v)) = mapRange f lo (hi + 1) mem := by
  funext i
  rcases eq_or_ne i hi with rfl | hne
  · rw [Function.update_self, mapRange, if_pos (by omega), hv, Option.map_some]
  · rw [Function.update_of_ne hne, mapRange, mapRange]
    by_cases hin : lo ≤ i ∧ i < hi
    · rw [if_pos hin, if_pos (by omega)]
    · rw [if_neg hin, if_neg (by omega)]

/-- A string of C at an index: bytes other than NUL, and a NUL behind them. -/
def StringAt (mem : Memory) : ℤ → List U8 → Prop
  | p, [] => mem p = some 0
  | p, b :: s => mem p = some b ∧ b ≠ 0 ∧ StringAt mem (p + 1) s

theorem StringAt.congr {mem mem' : Memory} {p : ℤ} (h : ∀ i, p ≤ i → mem i = mem' i)
    {s : List U8} (hs : StringAt mem p s) : StringAt mem' p s := by
  induction s generalizing p with
  | nil => exact (h p le_rfl).symm.trans hs
  | cons b s ih =>
      obtain ⟨hb, hb0, hs⟩ := hs
      exact ⟨(h p le_rfl).symm.trans hb, hb0, ih (fun i hi => h i (by omega)) hs⟩

/-- There is one string at an index. -/
theorem StringAt.unique {mem : Memory} {p : ℤ} {s s' : List U8} (h : StringAt mem p s)
    (h' : StringAt mem p s') : s = s' := by
  induction s generalizing p s' with
  | nil =>
      rcases s' with - | ⟨c, s'⟩
      · rfl
      · exact absurd (Option.some.inj (h'.1.symm.trans h)) h'.2.1
  | cons b s ih =>
      rcases s' with - | ⟨c, s'⟩
      · exact absurd (Option.some.inj (h.1.symm.trans h')) h.2.1
      · rw [Option.some.inj (h.1.symm.trans h'.1), ih h.2.2 h'.2.2]

/-- A memory that holds bytes other than NUL, and a NUL behind them. -/
theorem Memory.Holds.stringAt {mem : Memory} {before s rest : List U8}
    (h : mem.Holds (before ++ (s ++ 0 :: rest))) (h0 : (0 : U8) ∉ s) :
    StringAt mem before.length s := by
  induction s generalizing before with
  | nil => exact h before.length 0 (by simp)
  | cons b s ih =>
      obtain ⟨hb, hs⟩ := not_or.mp (mt List.mem_cons.mpr h0)
      have hnext : mem.Holds (before ++ [b] ++ (s ++ 0 :: rest)) := by
        rwa [List.append_assoc]
      refine ⟨h before.length b ?_, fun hzero => hb hzero.symm, ?_⟩
      · exact by simp
      · have hlen : ((before ++ [b]).length : ℤ) = before.length + 1 := by simp
        rw [← hlen]
        exact ih hnext hs

theorem Memory.Holds.string {mem : Memory} {s rest : List U8} (h : mem.Holds (s ++ 0 :: rest))
    (h0 : (0 : U8) ∉ s) : StringAt mem 0 s := by
  have hstart : mem.Holds ([] ++ (s ++ 0 :: rest)) := h
  exact hstart.stringAt h0

section Strings

variable {τ : Type}

/-- `for (; *p; p++) step(p, *p)`, where the step may write. -/
def forString (view : τ → Memory) (step : ℤ → U8 → τ → Exec τ) (fuel : ℕ) (p : ℤ) (t : τ) :
    Exec τ :=
  whileLoop (fun _ => true)
    (fun s : ℤ × τ => do
      let c ← load (view s.2) s.1
      if c = 0 then pure (.inr s.2)
      else do
        let t ← step s.1 c s.2
        pure (.inl (s.1 + 1, t)))
    fuel (p, t) >>= fun
    | .inl s => .done s.2
    | .inr t => .done t

/-- What the steps make of a string. -/
def alongString (next : ℤ → U8 → τ → τ) : ℤ → List U8 → τ → τ
  | _, [], t => t
  | p, c :: s, t => alongString next (p + 1) s (next p c t)

variable {view : τ → Memory} {step : ℤ → U8 → τ → Exec τ}

theorem forString_zero (p : ℤ) (t : τ) : forString view step 0 p t = .unfinished := rfl

theorem forString_succ (fuel : ℕ) (p : ℤ) (t : τ) : forString view step (fuel + 1) p t =
    load (view t) p >>= fun c =>
      if c = 0 then .done t else step p c t >>= fun t => forString view step fuel (p + 1) t := by
  rw [forString, whileLoop, if_pos rfl]
  rcases load (view t) p with c | - | -
  · rw [done_bind, done_bind]
    by_cases hc : c = 0
    · rw [if_pos hc, if_pos hc]
      rfl
    · rw [if_neg hc, if_neg hc]
      rcases step p c t with t' | - | -
      · rfl
      · rfl
      · rfl
  · rfl
  · rfl

/-- **The loop over a string comes to an end exactly where there is one.**  A step is defined at
a byte that can be read, and it changes nothing that is still to be read. -/
theorem forString_eq_done {next : ℤ → U8 → τ → τ}
    (hstep : ∀ p c t, view t p = some c → step p c t = .done (next p c t))
    (hview : ∀ p c t i, p < i → view (next p c t) i = view t i) {fuel : ℕ} {p : ℤ} {t t' : τ} :
    forString view step fuel p t = .done t' ↔
      ∃ s, StringAt (view t) p s ∧ s.length < fuel ∧ t' = alongString next p s t := by
  induction fuel generalizing p t with
  | zero =>
      rw [forString_zero]
      constructor
      · rintro ⟨⟩
      · rintro ⟨s, -, hlt, -⟩
        exact absurd hlt (Nat.not_lt_zero _)
  | succ fuel ih =>
      -- a step changes no byte behind it, so the string from there on is still the same
      have hlater : ∀ c, ∀ i, p + 1 ≤ i → view (next p c t) i = view t i :=
        fun c i hi => hview p c t i (by omega)
      rw [forString_succ]
      constructor
      · intro h
        rcases hc : view t p with - | c
        · rw [load, hc] at h
          cases h
        rw [load_of_some hc, done_bind] at h
        by_cases hzero : c = 0
        · rw [if_pos hzero] at h
          exact ⟨[], by rw [StringAt, hc, hzero], Nat.succ_pos _, (Exec.done.inj h).symm⟩
        · rw [if_neg hzero, hstep p c t hc, done_bind] at h
          obtain ⟨s, hs, hlt, rfl⟩ := ih.mp h
          exact ⟨c :: s, ⟨hc, hzero, hs.congr (hlater c)⟩, Nat.succ_lt_succ hlt, rfl⟩
      · rintro ⟨s, hs, hlt, rfl⟩
        rcases s with - | ⟨c, s⟩
        · rw [load_of_some hs, done_bind, if_pos rfl]
          rfl
        · obtain ⟨hc, hzero, hs⟩ := hs
          rw [load_of_some hc, done_bind, if_neg hzero, hstep p c t hc, done_bind]
          have hs' := hs.congr fun i hi => (hlater c i hi).symm
          exact ih.mpr ⟨s, hs', Nat.lt_of_succ_lt_succ hlt, rfl⟩

/-- A fold over a string that does not look where it is. -/
theorem alongString_foldl (f : τ → U8 → τ) (p : ℤ) (s : List U8) (t : τ) :
    alongString (fun _ c t => f t c) p s t = s.foldl f t := by
  induction s generalizing p t with
  | nil => rfl
  | cons c s ih => exact ih _ _

/-- The loop that only reads. -/
theorem forString_foldl {mem : Memory} {p : ℤ} {s : List U8} (hs : StringAt mem p s)
    (f : τ → U8 → τ) {fuel : ℕ} (hfuel : s.length < fuel) (t : τ) :
    forString (fun _ => mem) (fun _ c t => .done (f t c)) fuel p t = .done (s.foldl f t) := by
  rw [← alongString_foldl f p]
  have hstep : ∀ p c (t : τ), mem p = some c →
      (Exec.done (f t c) : Exec τ) = .done ((fun _ c t => f t c : ℤ → U8 → τ → τ) p c t) :=
    fun _ _ _ _ => rfl
  exact (forString_eq_done hstep fun _ _ _ _ _ => rfl).mpr ⟨s, hs, hfuel, rfl⟩

end Strings

end C
