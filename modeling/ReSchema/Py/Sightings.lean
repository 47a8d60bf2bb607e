/-
ReSchema/Py/Sightings.lean

Ordinals by first sighting.

A memo that numbers its arguments in the order in which it first meets them is
the list of the distinct arguments met so far: `sight` records one, and its
`ordinal` is its index.  An ordinal once given never changes
(`ordinal_of_prefix`), recording what is known changes nothing
(`sight_of_mem`), and a new entry in front of everything shifts every ordinal
by one (`ordinal_cons`).
-/
import ReSchema.Py.Text

namespace Py

section Sightings

variable {α : Type} [DecidableEq α]

/-- The table after `a` has been met. -/
def sight (T : List α) (a : α) : List α := if a ∈ T then T else T ++ [a]

/-- The table after all of `as` have been met. -/
def sights (T : List α) (as : List α) : List α := as.foldl sight T

theorem sight_of_mem {T : List α} {a : α} (h : a ∈ T) : sight T a = T := if_pos h

theorem mem_sight {T : List α} {a b : α} : b ∈ sight T a ↔ b ∈ T ∨ b = a := by
  unfold sight
  split
  · rename_i h
    constructor
    · exact .inl
    · rintro (hb | rfl)
      · exact hb
      · exact h
  · simp

theorem prefix_sight (T : List α) (a : α) : T <+: sight T a := by
  unfold sight
  split
  · exact List.prefix_refl T
  · exact List.prefix_append T [a]

theorem nodup_sight {T : List α} (h : T.Nodup) (a : α) : (sight T a).Nodup := by
  unfold sight
  split
  · exact h
  · rename_i ha
    exact List.nodup_append.mpr ⟨h, by simp, fun b hb c hc => by
      rw [List.mem_singleton.mp hc]
      exact fun e => ha (e ▸ hb)⟩

/-- A new entry in front of the table stays in front of it. -/
theorem sight_cons {z a : α} (h : a ≠ z) (T : List α) : sight (z :: T) a = z :: sight T a := by
  by_cases ha : a ∈ T
  · rw [sight_of_mem ha, sight_of_mem (List.mem_cons_of_mem z ha)]
  · have ha' : a ∉ z :: T := by simp [h, ha]
    rw [sight, if_neg ha', sight, if_neg ha, List.cons_append]

/-- The number that the memo gives to `a`. -/
def ordinal (T : List α) (a : α) : ℕ := (sight T a).idxOf a

/-- An ordinal once given stays. -/
theorem ordinal_of_prefix {A T : List α} {a : α} (h : sight A a <+: T) :
    ordinal A a = ordinal T a := by
  have ha : a ∈ sight A a := mem_sight.mpr (.inr rfl)
  rw [ordinal, ordinal, sight_of_mem (h.subset ha)]
  obtain ⟨V, rfl⟩ := h
  exact (List.idxOf_append_of_mem ha).symm

/-- A new entry in front of the table shifts the ordinals of the others. -/
theorem ordinal_cons {z a : α} (h : a ≠ z) {T : List α} (ha : a ∈ T) :
    ordinal (z :: T) a = ordinal T a + 1 := by
  rw [ordinal, ordinal, sight_of_mem ha, sight_of_mem (List.mem_cons_of_mem z ha)]
  simpa using List.idxOf_cons_ne T (Ne.symm h)

/-- A new argument is numbered by what has been met before it. -/
theorem ordinal_of_notMem {T : List α} {a : α} (h : a ∉ T) : ordinal T a = T.length := by
  rw [ordinal, sight, if_neg h, List.idxOf_append_of_notMem h]
  simp

/-- An argument with the ordinal of a known one is that one. -/
theorem ordinal_inj {T : List α} {a b : α} (ha : a ∈ T) : ordinal T a = ordinal T b ↔ a = b := by
  rw [ordinal, ordinal, sight_of_mem ha]
  by_cases hb : b ∈ T
  · rw [sight_of_mem hb]
    exact List.idxOf_inj ha
  · have hlt : T.idxOf a < T.length := List.idxOf_lt_length_of_mem ha
    have hlen : (sight T b).idxOf b = T.length := ordinal_of_notMem hb
    rw [hlen]
    exact iff_of_false (by omega) fun h => hb (h ▸ ha)

theorem mem_sights {T as : List α} {b : α} : b ∈ sights T as ↔ b ∈ T ∨ b ∈ as := by
  induction as generalizing T with
  | nil => simp [sights]
  | cons a as ih =>
      have := ih (T := sight T a)
      rw [sights] at this
      rw [sights, List.foldl_cons, this, mem_sight, List.mem_cons, or_assoc]

theorem prefix_sights (T as : List α) : T <+: sights T as := by
  induction as generalizing T with
  | nil => exact List.prefix_refl T
  | cons a as ih => exact (prefix_sight T a).trans (ih (sight T a))

theorem nodup_sights {T : List α} (h : T.Nodup) (as : List α) : (sights T as).Nodup := by
  induction as generalizing T with
  | nil => exact h
  | cons a as ih => exact ih (nodup_sight h a)

/-- An entry in front of the table stays there while others are recorded. -/
theorem sights_cons {z : α} {T as : List α} (h : z ∉ as) : sights (z :: T) as = z :: sights T as := by
  induction as generalizing T with
  | nil => rfl
  | cons a as ih =>
      obtain ⟨ha, has⟩ := List.ne_and_not_mem_of_not_mem_cons h
      rw [sights, List.foldl_cons, sight_cons (Ne.symm ha)]
      exact ih has

/-- Recording what is known changes nothing. -/
theorem sights_of_subset {T as : List α} (h : ∀ a ∈ as, a ∈ T) : sights T as = T := by
  induction as with
  | nil => rfl
  | cons a as ih =>
      obtain ⟨ha, has⟩ := List.forall_mem_cons.mp h
      rw [sights, List.foldl_cons, sight_of_mem ha]
      exact ih has

/-- Entries that are new and distinct are recorded in their order. -/
theorem sights_nil_of_nodup {as : List α} (h : as.Nodup) : sights [] as = as := by
  have go : ∀ T as : List α, (T ++ as).Nodup → sights T as = T ++ as := by
    intro T as
    induction as generalizing T with
    | nil => simp [sights]
    | cons a as ih =>
        intro hn
        have ha : a ∉ T := by
          intro hmem
          exact (List.nodup_append.mp hn).2.2 a hmem a List.mem_cons_self rfl
        have hassoc : T ++ [a] ++ as = T ++ a :: as := by simp
        have := ih (T ++ [a]) (by rwa [hassoc])
        rw [hassoc] at this
        rw [← this, sights, List.foldl_cons, sight, if_neg ha]
        rfl
  simpa using go [] as h

/-! ### Renaming -/

section Map

variable {β : Type} [DecidableEq β] {f : α → β}

theorem sight_map (hf : Function.Injective f) (T : List α) (a : α) :
    sight (T.map f) (f a) = (sight T a).map f := by
  have hmem : f a ∈ T.map f ↔ a ∈ T := List.mem_map_of_injective hf
  by_cases h : a ∈ T
  · rw [sight_of_mem h, sight_of_mem (hmem.mpr h)]
  · rw [sight, if_neg (mt hmem.mp h), sight, if_neg h, List.map_append, List.map_singleton]

/-- An injective renaming changes no ordinal. -/
theorem ordinal_map (hf : Function.Injective f) (T : List α) (a : α) :
    ordinal (T.map f) (f a) = ordinal T a := by
  have hidx : ∀ S : List α, (S.map f).idxOf (f a) = S.idxOf a := by
    intro S
    induction S with
    | nil => rfl
    | cons b S ih => simp only [List.map_cons, List.idxOf_cons, ih, beq_eq_decide, hf.eq_iff]
  rw [ordinal, ordinal, sight_map hf, hidx]

end Map

end Sightings

end Py
