/-
ReSchema/C/Exec.lean

A fragment of C.

A piece of C gives a value, or has undefined behaviour, or has no answer yet
within the fuel of its loops (`Exec`).  Signed arithmetic that leaves the range
of `int` is undefined, and so is a read where the memory has nothing; unsigned
arithmetic is that of bit vectors.

`Ends` is total correctness, and `whileLoop_ends` its rule for loops: an
invariant, and a measure that each round decreases.  What is proved with it
holds for every fuel above the measure.
-/
import Mathlib

namespace C

/-- The outcome of a piece of C. -/
inductive Exec (α : Type)
  | done (a : α)
  | undefined
  | unfinished
  deriving DecidableEq

def Exec.bind {α β : Type} (x : Exec α) (f : α → Exec β) : Exec β :=
  match x with
  | .done a => f a
  | .undefined => .undefined
  | .unfinished => .unfinished

instance : Monad Exec where
  pure := .done
  bind := Exec.bind

@[simp] theorem done_bind {α β : Type} (a : α) (f : α → Exec β) :
    ((Exec.done a >>= f) : Exec β) = f a := rfl

@[simp] theorem pure_eq_done {α : Type} (a : α) : (pure a : Exec α) = .done a := rfl

abbrev U8 := BitVec 8
abbrev U32 := BitVec 32

/-- The values of `int`. -/
def IntRange (i : ℤ) : Prop := -2 ^ 31 ≤ i ∧ i < 2 ^ 31

instance (i : ℤ) : Decidable (IntRange i) := by unfold IntRange; infer_instance

/-- A signed result. -/
def signed (i : ℤ) : Exec ℤ := if IntRange i then .done i else .undefined

theorem signed_of_range {i : ℤ} (h : IntRange i) : signed i = .done i := if_pos h

/-- The readable bytes, by index. -/
abbrev Memory := ℤ → Option U8

/-- A read of one byte. -/
def load (mem : Memory) (i : ℤ) : Exec U8 :=
  match mem i with
  | some b => .done b
  | none => .undefined

theorem load_of_some {mem : Memory} {i : ℤ} {b : U8} (h : mem i = some b) :
    load mem i = .done b := by
  rw [load, h]

/-- The memory has the bytes from index 0 on.  Nothing is said about other indices: what is
proved of every such memory reads none of them. -/
def Memory.Holds (mem : Memory) (bytes : List U8) : Prop :=
  ∀ (i : ℕ) (b : U8), bytes[i]? = some b → mem i = some b

/-- The memory that has these bytes and nothing else. -/
def Memory.ofBytes (bytes : List U8) : Memory := fun i => if i < 0 then none else bytes[i.toNat]?

theorem Memory.holds_ofBytes (bytes : List U8) : (Memory.ofBytes bytes).Holds bytes := by
  intro i b hb
  have hneg : ¬ (i : ℤ) < 0 := by omega
  rw [Memory.ofBytes, if_neg hneg, Int.toNat_natCast]
  exact hb

/-- Two bytes in little-endian order. -/
theorem toNat_le16 (lo hi : U8) :
    (lo.setWidth 32 ||| hi.setWidth 32 <<< 8 : U32).toNat = lo.toNat + 256 * hi.toNat := by
  have hlo : lo.toNat < 2 ^ 8 := lo.isLt
  have hhi : hi.toNat < 2 ^ 8 := hi.isLt
  have hor : hi.toNat <<< 8 + lo.toNat = hi.toNat <<< 8 ||| lo.toNat :=
    Nat.shiftLeft_add_eq_or_of_lt hlo hi.toNat
  have hshift : hi.toNat <<< 8 = hi.toNat * 2 ^ 8 := Nat.shiftLeft_eq _ _
  rw [BitVec.toNat_or, BitVec.toNat_shiftLeft, BitVec.toNat_setWidth, BitVec.toNat_setWidth,
    Nat.mod_eq_of_lt (by omega), Nat.mod_eq_of_lt (a := hi.toNat) (by omega),
    Nat.mod_eq_of_lt (by omega), Nat.or_comm, ← hor]
  omega

/-! ### Total correctness -/

/-- The piece ends in a value with the property. -/
def Ends {α : Type} (x : Exec α) (Post : α → Prop) : Prop := ∃ a, x = .done a ∧ Post a

theorem Ends.done {α : Type} {Post : α → Prop} {a : α} (h : Post a) : Ends (.done a) Post :=
  ⟨a, rfl, h⟩

theorem Ends.bind {α β : Type} {x : Exec α} {f : α → Exec β} {Mid : α → Prop} {Post : β → Prop}
    (hx : Ends x Mid) (hf : ∀ a, Mid a → Ends (f a) Post) : Ends (x >>= f) Post := by
  obtain ⟨a, rfl, ha⟩ := hx
  exact hf a ha

/-! ### Loops -/

section Loops

variable {σ ρ : Type}

/-- `while (test) body`, where a round goes on with a new state or returns from the function. -/
def whileLoop (test : σ → Bool) (body : σ → Exec (σ ⊕ ρ)) : ℕ → σ → Exec (σ ⊕ ρ)
  | 0, _ => .unfinished
  | fuel + 1, s =>
      if test s then
        body s >>= fun r =>
          match r with
          | .inl s' => whileLoop test body fuel s'
          | .inr v => .done (.inr v)
      else .done (.inl s)

/-- **The rule for loops.** -/
theorem whileLoop_ends {test : σ → Bool} {body : σ → Exec (σ ⊕ ρ)} (Inv : σ → Prop)
    (measure : σ → ℕ) {Post : σ ⊕ ρ → Prop}
    (step : ∀ s, Inv s → test s = true → Ends (body s) fun r =>
      match r with
      | .inl s' => Inv s' ∧ measure s' < measure s
      | .inr v => Post (.inr v))
    (stop : ∀ s, Inv s → test s = false → Post (.inl s))
    {fuel : ℕ} {s : σ} (hs : Inv s) (hfuel : measure s < fuel) :
    Ends (whileLoop test body fuel s) Post := by
  induction fuel generalizing s with
  | zero => exact absurd hfuel (Nat.not_lt_zero _)
  | succ fuel ih =>
      rw [whileLoop]
      by_cases ht : test s = true
      · rw [if_pos ht]
        refine (step s hs ht).bind fun r hr => ?_
        cases r with
        | inl s' => exact ih hr.1 (Nat.lt_of_lt_of_le hr.2 (Nat.le_of_lt_succ hfuel))
        | inr v => exact .done hr
      · rw [if_neg ht]
        exact .done (stop s hs (Bool.eq_false_iff.mpr ht))

end Loops

end C
