/-
ReSchema/HiddenSuite.lean

Ground truth on the host (`validate/program.py`).

Every case is recorded twice and kept only if both recordings are equal after
canonicalisation.  The hidden suite draws inputs until it has enough of them:
an input already used is skipped, a flaky or crashing one is dropped, and the
draw gives up after ten attempts for each case wanted.

The guest program is not assumed to be deterministic: `Guest` gives an outcome
for each recording in turn.  Nor is anything assumed of the stream of drawn
inputs, which stands for `hidden_input_stream`.
-/
import ReSchema.Compare

namespace ReSchema

open Py

/-- The `k`-th recording of the binary under a name, on the given arguments and input. -/
abbrev Guest := ℕ → PyStr → List PyStr → Bytes → Outcome

/-- The input of a case: the arguments and the hexadecimal standard input. -/
abbrev Input := List PyStr × PyStr

/-- The input that a trace was recorded on. -/
def Trace.input (t : Trace) : Input := (t.argv, t.stdinHex)

/-- `HIDDEN_N`. -/
def hiddenN : ℕ := 8

section Record

variable (F : Type) [Runtime F]

/-- One canonical recording. -/
def recordAt (guest : Guest) (binary : PyStr) (k : ℕ) (argv : List PyStr) (stdin : Bytes) : Trace :=
  canonicalize F (record
    { guest k binary argv stdin with binary := binary, argv := argv, stdin := stdin })

/-- `record_stable(binary, argv, stdin)`, from the `k`-th recording on. -/
def recordStable (guest : Guest) (binary : PyStr) (k : ℕ) (argv : List PyStr) (stdin : Bytes) :
    Option Trace :=
  let a := recordAt F guest binary k argv stdin
  let b := recordAt F guest binary (k + 1) argv stdin
  if pyEq (F := F) a.toJson b.toJson then some a else none

/-- The loop of `hidden_suite` with `n` attempts left; `i` counts them and `k` is the number
of the next recording. -/
def hiddenLoop (guest : Guest) (binary : PyStr) (draws : ℕ → List PyStr × Bytes) :
    ℕ → ℕ → ℕ → List Input → List Trace → List Trace
  | 0, _, _, _, fresh => fresh
  | n + 1, i, k, known, fresh =>
      if fresh.length = hiddenN then fresh
      else
        let key : Input := ((draws i).1, hex (draws i).2)
        if key ∈ known then hiddenLoop guest binary draws n (i + 1) k known fresh
        else
          match recordStable F guest binary k (draws i).1 (draws i).2 with
          | none => hiddenLoop guest binary draws n (i + 1) (k + 2) (known ++ [key]) fresh
          | some t =>
              if t.exitCode = -1 then
                hiddenLoop guest binary draws n (i + 1) (k + 2) (known ++ [key]) fresh
              else hiddenLoop guest binary draws n (i + 1) (k + 2) (known ++ [key]) (fresh ++ [t])

/-- `hidden_suite(binary, seed_name, rec, hidden_seed)`, from the `k`-th recording on. -/
def hiddenSuite (guest : Guest) (binary : PyStr) (draws : ℕ → List PyStr × Bytes) (k : ℕ)
    (recorded : List Trace) : List Trace :=
  hiddenLoop F guest binary draws (10 * hiddenN) 0 k (recorded.map Trace.input) []

end Record

/-! ### What is recorded -/

/-- A canonical trace of some run. -/
def Recorded (F : Type) [Runtime F] (t : Trace) : Prop := ∃ r : Run, t = canonicalize F (record r)

section Facts

variable {F : Type} [Runtime F] {guest : Guest} {binary : PyStr}

theorem recordStable_spec {k : ℕ} {argv : List PyStr} {stdin : Bytes} {t : Trace}
    (h : recordStable F guest binary k argv stdin = some t) :
    Recorded F t ∧ t.input = (argv, hex stdin) := by
  simp only [recordStable] at h
  split_ifs at h
  cases h
  exact ⟨⟨_, rfl⟩, rfl⟩

/-- What the loop keeps: recorded traces of inputs that are known, distinct, and not among
those known at the start. -/
structure Suite (F : Type) [Runtime F] (old known : List Input) (fresh : List Trace) : Prop where
  length_le : fresh.length ≤ hiddenN
  recorded : ∀ t ∈ fresh, Recorded F t
  mem_known : ∀ t ∈ fresh, t.input ∈ known
  old_known : ∀ a ∈ old, a ∈ known
  nodup : (fresh.map Trace.input).Nodup
  disjoint : ∀ t ∈ fresh, t.input ∉ old

theorem Suite.learn {old known : List Input} {fresh : List Trace} (h : Suite F old known fresh)
    (key : Input) : Suite F old (known ++ [key]) fresh :=
  ⟨h.length_le, h.recorded, fun t ht => List.mem_append_left _ (h.mem_known t ht),
    fun a ha => List.mem_append_left _ (h.old_known a ha), h.nodup, h.disjoint⟩

theorem Suite.keep {old known : List Input} {fresh : List Trace} (h : Suite F old known fresh)
    {t : Trace} (hrec : Recorded F t) (hnew : t.input ∉ known) (hlen : fresh.length ≠ hiddenN) :
    Suite F old (known ++ [t.input]) (fresh ++ [t]) where
  length_le := by
    have := h.length_le
    rw [List.length_append, List.length_singleton]
    omega
  recorded := by
    simpa [or_imp, forall_and] using ⟨h.recorded, hrec⟩
  mem_known := by
    intro u hu
    rcases List.mem_append.mp hu with hu | hu
    · exact List.mem_append_left _ (h.mem_known u hu)
    · rw [List.mem_singleton.mp hu]
      exact List.mem_append_right _ List.mem_cons_self
  old_known := fun a ha => List.mem_append_left _ (h.old_known a ha)
  nodup := by
    rw [List.map_append, List.map_singleton, List.nodup_append]
    refine ⟨h.nodup, by simp, fun a ha b hb => ?_⟩
    rw [List.mem_singleton.mp hb]
    rintro rfl
    obtain ⟨u, hu, hut⟩ := List.mem_map.mp ha
    exact hnew (hut ▸ h.mem_known u hu)
  disjoint := by
    intro u hu
    rcases List.mem_append.mp hu with hu | hu
    · exact h.disjoint u hu
    · rw [List.mem_singleton.mp hu]
      exact fun hold => hnew (h.old_known _ hold)

theorem hiddenLoop_suite {draws : ℕ → List PyStr × Bytes} {old : List Input} (n i k : ℕ)
    {known : List Input} {fresh : List Trace} (h : Suite F old known fresh) :
    ∃ known', Suite F old known' (hiddenLoop F guest binary draws n i k known fresh) := by
  induction n generalizing i k known fresh with
  | zero => exact ⟨known, h⟩
  | succ n ih =>
      rw [hiddenLoop.eq_def]
      dsimp only
      split_ifs with hfull hknown
      · exact ⟨known, h⟩
      · exact ih _ _ h
      · rcases hrec : recordStable F guest binary k (draws i).1 (draws i).2 with - | t
        · exact ih _ _ (h.learn _)
        · obtain ⟨hr, hinput⟩ := recordStable_spec hrec
          dsimp only
          split_ifs
          · exact ih _ _ (h.learn _)
          · rw [← hinput] at hknown ⊢
            exact ih _ _ (h.keep hr hknown hfull)

/-- **The hidden suite**: at most `HIDDEN_N` recorded traces of distinct inputs, none of them
a nominated one. -/
theorem hiddenSuite_suite (draws : ℕ → List PyStr × Bytes) (k : ℕ) (recorded : List Trace) :
    ∃ known, Suite F (recorded.map Trace.input) known
      (hiddenSuite F guest binary draws k recorded) :=
  hiddenLoop_suite _ _ _ ⟨by simp, by simp, by simp, fun _ h => h, List.nodup_nil, by simp⟩

end Facts

/-! ### Which draws are kept -/

section Draws

variable (F : Type) [Runtime F] (guest : Guest) (binary : PyStr)
  (draws : ℕ → List PyStr × Bytes) (k : ℕ) (recorded : List Trace)

/-- The key of the `i`-th draw. -/
def drawKey (i : ℕ) : Input := ((draws i).1, hex (draws i).2)

/-- The `i`-th draw repeats neither a nominated input nor an earlier draw. -/
def NewDraw (i : ℕ) : Prop :=
  drawKey draws i ∉ recorded.map Trace.input ∧ ∀ j < i, drawKey draws j ≠ drawKey draws i

instance (i : ℕ) : Decidable (NewDraw draws recorded i) := by
  unfold NewDraw; infer_instance

/-- The number of the recording at which the `i`-th draw is tried: every earlier new draw has
taken two of them. -/
def recordingOf (i : ℕ) : ℕ :=
  k + 2 * ((List.range i).filter fun j => NewDraw draws recorded j).length

/-- The trace of a usable draw: new, stable and not crashing. -/
def usable (i : ℕ) : Option Trace :=
  if NewDraw draws recorded i then
    (recordStable F guest binary (recordingOf draws k recorded i) (draws i).1 (draws i).2).filter
      fun t => t.exitCode ≠ -1
  else none

end Draws

section Kept

variable {F : Type} [Runtime F] {guest : Guest} {binary : PyStr}
  {draws : ℕ → List PyStr × Bytes} {k : ℕ} {recorded : List Trace}

/-- The inputs that the loop knows before the `i`-th draw. -/
def KnownBefore (draws : ℕ → List PyStr × Bytes) (recorded : List Trace) (i : ℕ)
    (known : List Input) : Prop :=
  ∀ a, a ∈ known ↔ a ∈ recorded.map Trace.input ∨ ∃ j < i, drawKey draws j = a

theorem KnownBefore.new_iff {i : ℕ} {known : List Input}
    (h : KnownBefore draws recorded i known) :
    drawKey draws i ∉ known ↔ NewDraw draws recorded i := by
  rw [h]
  simp only [NewDraw, not_or, not_exists, not_and]

theorem KnownBefore.skip {i : ℕ} {known : List Input} (h : KnownBefore draws recorded i known)
    (hmem : drawKey draws i ∈ known) : KnownBefore draws recorded (i + 1) known := by
  intro a
  constructor
  · intro ha
    rcases (h a).mp ha with ha | ⟨j, hj, rfl⟩
    · exact .inl ha
    · exact .inr ⟨j, by omega, rfl⟩
  · rintro (ha | ⟨j, hj, rfl⟩)
    · exact (h a).mpr (.inl ha)
    · obtain rfl | hlt : j = i ∨ j < i := by omega
      · exact hmem
      · exact (h _).mpr (.inr ⟨j, hlt, rfl⟩)

theorem KnownBefore.learn {i : ℕ} {known : List Input} (h : KnownBefore draws recorded i known) :
    KnownBefore draws recorded (i + 1) (known ++ [drawKey draws i]) := by
  intro a
  rw [List.mem_append, List.mem_singleton, h a, or_assoc]
  refine or_congr_right ⟨?_, ?_⟩
  · rintro (⟨j, hj, rfl⟩ | rfl)
    · exact ⟨j, by omega, rfl⟩
    · exact ⟨i, by omega, rfl⟩
  · rintro ⟨j, hj, rfl⟩
    obtain rfl | hlt : j = i ∨ j < i := by omega
    · exact .inr rfl
    · exact .inl ⟨j, hlt, rfl⟩

theorem recordingOf_succ (i : ℕ) :
    recordingOf draws k recorded (i + 1) =
      recordingOf draws k recorded i + if NewDraw draws recorded i then 2 else 0 := by
  rw [recordingOf, recordingOf, List.range_succ, List.filter_append, List.length_append]
  by_cases h : NewDraw draws recorded i
  · simp [h]
    omega
  · simp [h]

/-- The loop appends the traces of the usable draws until it has enough of them. -/
theorem hiddenLoop_eq (n i : ℕ) {known : List Input} {fresh : List Trace}
    (hknown : KnownBefore draws recorded i known) (hlen : fresh.length ≤ hiddenN) :
    hiddenLoop F guest binary draws n i (recordingOf draws k recorded i) known fresh =
      (fresh ++ (List.range' i n).filterMap
        (usable F guest binary draws k recorded)).take hiddenN := by
  induction n generalizing i known fresh with
  | zero => simp [hiddenLoop, List.take_of_length_le hlen]
  | succ n ih =>
      rw [hiddenLoop.eq_def, List.range'_succ, List.filterMap_cons]
      dsimp only
      have hkey : ((draws i).1, hex (draws i).2) = drawKey draws i := rfl
      have hsucc := @recordingOf_succ draws k recorded i
      simp only [hkey]
      by_cases hfull : fresh.length = hiddenN
      · rw [if_pos hfull, ← hfull, List.take_left]
      rw [if_neg hfull]
      by_cases hmem : drawKey draws i ∈ known
      · -- a repeated input costs an attempt and no recording
        have hold : ¬ NewDraw draws recorded i := fun hn => hknown.new_iff.mpr hn hmem
        replace hsucc : recordingOf draws k recorded (i + 1) = recordingOf draws k recorded i := by
          rw [hsucc, if_neg hold, Nat.add_zero]
        rw [if_pos hmem, ← hsucc, ih (i + 1) (hknown.skip hmem) hlen]
        simp only [usable, if_neg hold]
      · have hnew : NewDraw draws recorded i := hknown.new_iff.mp hmem
        rw [if_pos hnew] at hsucc
        rw [if_neg hmem, ← hsucc]
        rcases hrec : recordStable F guest binary (recordingOf draws k recorded i) (draws i).1
          (draws i).2 with - | t
        · dsimp only
          rw [ih (i + 1) hknown.learn hlen]
          simp only [usable, if_pos hnew, hrec, Option.filter_none]
        · dsimp only
          by_cases hexit : t.exitCode = -1
          · rw [if_pos hexit, ih (i + 1) hknown.learn hlen]
            simp [usable, hnew, hrec, hexit, Option.filter_some]
          · have hlen' : (fresh ++ [t]).length ≤ hiddenN := by
              rw [List.length_append, List.length_singleton]
              omega
            rw [if_neg hexit, ih (i + 1) hknown.learn hlen']
            simp [usable, hnew, hrec, hexit, Option.filter_some]

/-- The loop keeps the traces of the first usable draws. -/
theorem hiddenSuite_take (draws : ℕ → List PyStr × Bytes) (k : ℕ) (recorded : List Trace) :
    hiddenSuite F guest binary draws k recorded = ((List.range (10 * hiddenN)).filterMap
      (usable F guest binary draws k recorded)).take hiddenN := by
  have hstart : KnownBefore draws recorded 0 (recorded.map Trace.input) := by
    intro a
    simp
  have hloop := @hiddenLoop_eq F _ guest binary draws k recorded (10 * hiddenN) 0 _ [] hstart
    (Nat.zero_le _)
  have hzero : recordingOf draws k recorded 0 = k := rfl
  rw [hzero, List.nil_append, ← List.range_eq_range'] at hloop
  exact hloop

/-- **First usable draws.**  The hidden suite has the traces of the first `HIDDEN_N` usable
draws among the first ten times as many, in their order, and it is short of `HIDDEN_N` exactly
when these draws are. -/
theorem hiddenSuite_eq (draws : ℕ → List PyStr × Bytes) (k : ℕ) (recorded : List Trace) :
    let found := (List.range (10 * hiddenN)).filterMap (usable F guest binary draws k recorded)
    hiddenSuite F guest binary draws k recorded = found.take hiddenN ∧
      ((hiddenSuite F guest binary draws k recorded).length < hiddenN ↔
        found.length < hiddenN) := by
  intro found
  have heq : hiddenSuite F guest binary draws k recorded = found.take hiddenN :=
    hiddenSuite_take draws k recorded
  refine ⟨heq, ?_⟩
  rw [heq, List.length_take]
  omega

end Kept

end ReSchema
