/-
ReSchema/Py/Random.lean

A random generator whose numbers may be any.

`Stream` has the raw numbers behind the calls of the generator, in their order;
each method makes its value of one of them.  A result about every stream is a
result about every outcome of the draws.
-/
import ReSchema.Py.Text

namespace Py

/-- The raw numbers behind the calls of the random generator. -/
abbrev Stream := ℕ → ℕ

/-- `rng.randint(lo, hi)` as the `k`-th call. -/
def randint (stream : Stream) (k : ℕ) (lo hi : ℤ) : ℤ := lo + (stream k : ℤ) % (hi - lo + 1)

/-- `n` calls in a row, from the `k`-th on. -/
def randints (stream : Stream) (k n : ℕ) (lo hi : ℤ) : List ℤ :=
  (List.range n).map fun i => randint stream (k + i) lo hi

/-- `rng.random() < p` as the `k`-th call.  The float has 53 random bits, and `bound` is `p` in
units of the last of them, rounded up. -/
def randomBelow (stream : Stream) (k bound : ℕ) : Bool := stream k % 2 ^ 53 < bound

/-- `rng.choice(xs)` as the `k`-th call. -/
def choice {α : Type} [Inhabited α] (stream : Stream) (k : ℕ) (xs : List α) : α :=
  (xs[stream k % xs.length]?).getD default

theorem randint_mem (stream : Stream) (k : ℕ) {lo hi : ℤ} (h : lo ≤ hi) :
    lo ≤ randint stream k lo hi ∧ randint stream k lo hi ≤ hi := by
  have hpos : 0 < hi - lo + 1 := by omega
  have h0 := Int.emod_nonneg (stream k : ℤ) hpos.ne'
  have h1 := Int.emod_lt_of_pos (stream k : ℤ) hpos
  unfold randint
  omega

theorem length_randints (stream : Stream) (k n : ℕ) (lo hi : ℤ) :
    (randints stream k n lo hi).length = n := by
  rw [randints, List.length_map, List.length_range]

theorem choice_mem {α : Type} [Inhabited α] (stream : Stream) (k : ℕ) {xs : List α}
    (h : xs ≠ []) : choice stream k xs ∈ xs := by
  have hlt : stream k % xs.length < xs.length := Nat.mod_lt _ (List.length_pos_iff.mpr h)
  rw [choice, List.getElem?_eq_getElem hlt, Option.getD_some]
  exact List.getElem_mem hlt

end Py
