/-
ReSchema/Py/Json.lean

JSON values as Python holds them, `json.dumps`, and `repr`.

A parsed object is a `dict`, which keeps insertion order, so `Json.obj` is an
association list; equality of dictionaries (`pyEq`) and `sort_keys` are
separate functions on it.  Three things of the interpreter are no part of a
value and stand in the class `Runtime`: how it reads and prints a float, which
code points it counts as printable or as word characters, and how deep it
recurses.

`render` is `json.dumps` with ASCII escapes in any of its layouts; the four
the code asks for are `plain`, `compact`, `indent2` and the sorted variants.
-/
import ReSchema.Py.Text

namespace Py

/-! ### The interpreter -/

/-- What a value's meaning takes from the interpreter and its tables. -/
class Runtime (F : Type) where
  /-- `float(text)`, and the constants NaN, Infinity and -Infinity. -/
  floatOfText : PyStr → F
  /-- The text `json.dumps` gives a float. -/
  floatJson : F → PyStr
  /-- `repr` of a float. -/
  floatRepr : F → PyStr
  /-- `x == y`. -/
  floatEq : F → F → Bool
  /-- `x == i`. -/
  floatEqInt : F → ℤ → Bool
  /-- `str.isprintable` beyond ASCII. -/
  isPrintable : CodePoint → Bool
  /-- `\w` of a regular expression. -/
  isWord : CodePoint → Bool
  /-- The value of a decimal digit beyond ASCII. -/
  decimal : CodePoint → Option ℕ
  /-- The nesting at which the JSON scanner raises `RecursionError`. -/
  maxDepth : ℕ
  /-- The text of the exception that `json.loads` raises. -/
  loadsError : Bytes → PyStr
  /-- `hashlib.sha256(data).hexdigest()`. -/
  sha256 : Bytes → PyStr

/-! ### Values -/

/-- A JSON value; `F` is the type of floats. -/
inductive Json (F : Type)
  | null
  | bool (b : Bool)
  | int (i : ℤ)
  | float (x : F)
  | str (s : PyStr)
  | arr (xs : List (Json F))
  | obj (d : List (PyStr × Json F))

variable {F : Type}

/-- Induction over a value, with the hypothesis at every element and every entry. -/
@[elab_as_elim]
theorem Json.induct {P : Json F → Prop} (null : P .null) (bool : ∀ b, P (.bool b))
    (int : ∀ i, P (.int i)) (float : ∀ x, P (.float x)) (str : ∀ s, P (.str s))
    (arr : ∀ xs, (∀ x ∈ xs, P x) → P (.arr xs))
    (obj : ∀ d, (∀ e ∈ d, P e.2) → P (.obj d)) (v : Json F) : P v :=
  Json.rec (motive_1 := P) (motive_2 := fun xs => ∀ x ∈ xs, P x)
    (motive_3 := fun d => ∀ e ∈ d, P e.2) (motive_4 := fun e => P e.2)
    null bool int float str arr obj
    (fun _ h => absurd h List.not_mem_nil)
    (fun _ _ hx hxs => List.forall_mem_cons.mpr ⟨hx, hxs⟩)
    (fun _ h => absurd h List.not_mem_nil)
    (fun _ _ he hd => List.forall_mem_cons.mpr ⟨he, hd⟩)
    (fun _ _ h => h) v

/-! ### Dictionaries -/

/-- A Python `dict` with string keys, in insertion order. -/
abbrev Dict (α : Type) := List (PyStr × α)

section Dict

variable {α : Type}

/-- `d[k] = v`: an old key keeps its place. -/
def Dict.set : Dict α → PyStr → α → Dict α
  | [], k, v => [(k, v)]
  | (k', v') :: d, k, v => if k' = k then (k, v) :: d else (k', v') :: Dict.set d k v

/-- `d | e`. -/
def Dict.update (d e : Dict α) : Dict α := e.foldl (fun acc p => acc.set p.1 p.2) d

/-- The keys, in order. -/
def Dict.keys (d : Dict α) : List PyStr := d.map Prod.fst

/-- `set(d) == set(e)` on keys. -/
def sameKeys (ks ls : List PyStr) : Bool := ks.all (· ∈ ls) && ls.all (· ∈ ks)

theorem sameKeys_iff {ks ls : List PyStr} : sameKeys ks ls = true ↔ ∀ k, k ∈ ks ↔ k ∈ ls := by
  simp only [sameKeys, Bool.and_eq_true, List.all_eq_true, decide_eq_true_iff]
  exact ⟨fun h k => ⟨h.1 k, h.2 k⟩, fun h => ⟨fun k => (h k).mp, fun k => (h k).mpr⟩⟩

theorem Dict.lookup_set_self (d : Dict α) (k : PyStr) (v : α) :
    (d.set k v).lookup k = some v := by
  induction d with
  | nil => simp [Dict.set]
  | cons e d ih =>
      obtain ⟨k', v'⟩ := e
      by_cases h : k' = k
      · simp [Dict.set, h]
      · have h' : (k == k') = false := by simpa using fun e => h e.symm
        simp [Dict.set, h, List.lookup_cons, h', ih]

theorem Dict.lookup_set_of_ne (d : Dict α) {k l : PyStr} (v : α) (h : l ≠ k) :
    (d.set k v).lookup l = d.lookup l := by
  have hlk : (l == k) = false := by simpa using h
  induction d with
  | nil => simp [Dict.set, List.lookup_cons, hlk]
  | cons e d ih =>
      obtain ⟨k', v'⟩ := e
      by_cases hk : k' = k
      · subst hk
        simp [Dict.set, List.lookup_cons, hlk]
      · simp [Dict.set, hk, List.lookup_cons, ih]

theorem Dict.mem_keys_set (d : Dict α) (k l : PyStr) (v : α) :
    l ∈ (d.set k v).keys ↔ l = k ∨ l ∈ d.keys := by
  induction d with
  | nil => simp [Dict.set, Dict.keys]
  | cons e d ih =>
      obtain ⟨k', v'⟩ := e
      by_cases hk : k' = k
      · subst hk
        simp [Dict.set, Dict.keys]
      · simp only [Dict.keys] at ih
        simp only [Dict.set, hk, if_false, Dict.keys, List.map_cons, List.mem_cons, ih]
        tauto

theorem Dict.nodup_keys_set {d : Dict α} (h : d.keys.Nodup) (k : PyStr) (v : α) :
    (d.set k v).keys.Nodup := by
  induction d with
  | nil => simp [Dict.set, Dict.keys]
  | cons e d ih =>
      obtain ⟨k', v'⟩ := e
      by_cases hk : k' = k
      · subst hk
        simpa [Dict.set, Dict.keys] using h
      · simp only [Dict.keys, List.map_cons, List.nodup_cons] at h
        have hmem := Dict.mem_keys_set d k k' v
        have ih' := ih h.2
        simp only [Dict.keys] at hmem ih' ⊢
        simp only [Dict.set, hk, if_false, List.map_cons, List.nodup_cons]
        exact ⟨fun hm => (hmem.mp hm).elim hk h.1, ih'⟩

theorem Dict.lookup_eq_some_of_mem {d : Dict α} (h : d.keys.Nodup) {k : PyStr} {v : α}
    (hm : (k, v) ∈ d) : d.lookup k = some v := by
  induction d with
  | nil => exact absurd hm List.not_mem_nil
  | cons e d ih =>
      obtain ⟨k', v'⟩ := e
      simp only [Dict.keys, List.map_cons, List.nodup_cons] at h
      rcases List.mem_cons.mp hm with heq | hm'
      · cases heq
        simp
      · have hne : k ≠ k' := fun e => h.1 (e ▸ List.mem_map_of_mem (f := Prod.fst) hm')
        have hne' : (k == k') = false := by simpa using hne
        rw [List.lookup_cons, hne']
        exact ih h.2 hm'

theorem Dict.mem_of_lookup_eq_some {d : Dict α} {k : PyStr} {v : α}
    (h : d.lookup k = some v) : (k, v) ∈ d := by
  induction d with
  | nil => simp at h
  | cons e d ih =>
      obtain ⟨k', v'⟩ := e
      rw [List.lookup_cons] at h
      by_cases hk : k = k'
      · subst hk
        simp only [beq_self_eq_true] at h
        simp [Option.some.inj h]
      · have hk' : (k == k') = false := by simpa using hk
        rw [hk'] at h
        exact List.mem_cons_of_mem _ (ih h)

theorem Dict.lookup_of_not_mem {d : Dict α} {k : PyStr} (h : k ∉ d.keys) :
    d.lookup k = none := by
  rw [List.lookup_eq_none_iff]
  intro e he
  rw [bne_iff_ne]
  rintro rfl
  exact h (List.mem_map_of_mem (f := Prod.fst) he)

theorem Dict.exists_lookup {d : Dict α} {k : PyStr} (h : k ∈ d.keys) :
    ∃ v, d.lookup k = some v := by
  apply Option.isSome_iff_exists.mp
  rw [Option.isSome_iff_ne_none]
  intro hnone
  obtain ⟨p, hp, rfl⟩ := List.mem_map.mp h
  exact absurd (beq_self_eq_true p.1) (by simpa using List.lookup_eq_none_iff.mp hnone p hp)

theorem Dict.lookup_append_of_mem {d e : Dict α} {k : PyStr} (h : k ∈ d.keys) :
    (d ++ e : Dict α).lookup k = d.lookup k := by
  obtain ⟨v, hv⟩ := Dict.exists_lookup h
  rw [List.lookup_append, hv]
  rfl

theorem Dict.lookup_last {d : Dict α} {k : PyStr} (h : k ∉ d.keys) (v : α) :
    List.lookup k (d ++ [(k, v)]) = some v := by
  rw [List.lookup_append, Dict.lookup_of_not_mem h]
  simp

theorem Dict.set_last {d : Dict α} {k : PyStr} (h : k ∉ d.keys) (v w : α) :
    Dict.set (d ++ [(k, v)]) k w = d ++ [(k, w)] := by
  induction d with
  | nil => simp [Dict.set]
  | cons e d ih =>
      obtain ⟨k', v'⟩ := e
      obtain ⟨hk, hd⟩ := List.ne_and_not_mem_of_not_mem_cons h
      have hset : Dict.set ((k', v') :: (d ++ [(k, v)])) k w =
          (k', v') :: Dict.set (d ++ [(k, v)]) k w := if_neg hk.symm
      show Dict.set ((k', v') :: (d ++ [(k, v)])) k w = (k', v') :: (d ++ [(k, w)])
      rw [hset, ih hd]

/-- Two dictionaries with the same keys in the same order are equal when their values are. -/
theorem Dict.eq_of_lookup {d e : Dict α} (hd : d.keys.Nodup) (hkeys : d.keys = e.keys)
    (h : ∀ k ∈ d.keys, d.lookup k = e.lookup k) : d = e := by
  induction d generalizing e with
  | nil =>
      cases e with
      | nil => rfl
      | cons p e => cases hkeys
  | cons p d ih =>
      cases e with
      | nil => cases hkeys
      | cons q e =>
          obtain ⟨k, v⟩ := p
          obtain ⟨l, w⟩ := q
          obtain ⟨rfl, htail⟩ : k = l ∧ Dict.keys d = Dict.keys e := List.cons.inj hkeys
          obtain ⟨hk, hd⟩ := List.nodup_cons.mp hd
          have hhead := h k List.mem_cons_self
          simp only [List.lookup_cons, beq_self_eq_true, Option.some.injEq] at hhead
          rw [hhead, ih hd htail]
          intro l hl
          have hne : (l == k) = false := by
            rw [beq_eq_false_iff_ne]
            rintro rfl
            exact hk hl
          have := h l (List.mem_cons_of_mem _ hl)
          simpa only [List.lookup_cons, hne] using this

theorem Dict.set_of_not_mem {d : Dict α} {k : PyStr} (h : k ∉ d.keys) (v : α) :
    d.set k v = d ++ [(k, v)] := by
  induction d with
  | nil => rfl
  | cons e d ih =>
      obtain ⟨k', v'⟩ := e
      simp only [Dict.keys, List.map_cons, List.mem_cons, not_or] at h
      simp [Dict.set, Ne.symm h.1, ih h.2]

theorem Dict.update_append {d e : Dict α} (h : (d ++ e : Dict α).keys.Nodup) :
    Dict.update d e = d ++ e := by
  induction e generalizing d with
  | nil => simp [Dict.update]
  | cons p e ih =>
      obtain ⟨k, v⟩ := p
      have hassoc : d ++ [(k, v)] ++ e = d ++ (k, v) :: e := by simp
      have hk : k ∉ d.keys := by
        intro hmem
        simp only [Dict.keys, List.map_append, List.map_cons, List.nodup_append] at h hmem
        exact h.2.2 k hmem k List.mem_cons_self rfl
      have hset := Dict.set_of_not_mem hk v
      have hstep : Dict.update d ((k, v) :: e) = Dict.update (d.set k v) e := rfl
      rw [hstep, hset, ih (by rwa [hassoc]), hassoc]

/-- Many keys set to one value. -/
theorem Dict.lookup_update_map (d : Dict α) (ks : List PyStr) (v : α) (k : PyStr) :
    (d.update (ks.map fun l => (l, v))).lookup k = if k ∈ ks then some v else d.lookup k := by
  induction ks generalizing d with
  | nil => simp [Dict.update]
  | cons l ks ih =>
      have hstep : d.update ((l :: ks).map fun l => (l, v)) =
          (d.set l v).update (ks.map fun l => (l, v)) := rfl
      rw [hstep, ih]
      by_cases hk : k ∈ ks
      · rw [if_pos hk, if_pos (List.mem_cons_of_mem _ hk)]
      · rw [if_neg hk]
        by_cases hl : k = l
        · subst hl
          rw [Dict.lookup_set_self, if_pos List.mem_cons_self]
        · rw [Dict.lookup_set_of_ne d v hl, if_neg (by simp [hl, hk])]

/-- Building a dictionary from entries without repeated keys copies them. -/
theorem Dict.update_nil {d : Dict α} (h : d.keys.Nodup) : Dict.update [] d = d := by
  simpa using Dict.update_append (d := []) (by simpa using h)

theorem Dict.mem_set {d : Dict α} {k : PyStr} {v : α} {e : PyStr × α} (h : e ∈ d.set k v) :
    e ∈ d ∨ e = (k, v) := by
  induction d with
  | nil => simpa [Dict.set] using h
  | cons p d ih =>
      obtain ⟨k', v'⟩ := p
      by_cases hk : k' = k
      · subst hk
        simp only [Dict.set, if_true, List.mem_cons] at h ⊢
        tauto
      · simp only [Dict.set, hk, if_false, List.mem_cons] at h ⊢
        rcases h with h | h
        · exact .inl (.inl h)
        · exact (ih h).imp_left .inr

theorem Dict.mem_update {d e : Dict α} {p : PyStr × α} (h : p ∈ Dict.update d e) :
    p ∈ d ∨ p ∈ e := by
  induction e generalizing d with
  | nil => exact .inl h
  | cons q e ih =>
      rcases ih (d := d.set q.1 q.2) h with h' | h'
      · rcases Dict.mem_set h' with h'' | h''
        · exact .inl h''
        · exact .inr (by simp [h''])
      · exact .inr (List.mem_cons_of_mem _ h')

theorem Dict.mem_keys_update (d e : Dict α) (k : PyStr) :
    k ∈ (Dict.update d e).keys ↔ k ∈ d.keys ∨ k ∈ e.keys := by
  induction e generalizing d with
  | nil => simp [Dict.update, Dict.keys]
  | cons p e ih =>
      have hstep : Dict.update d (p :: e) = Dict.update (d.set p.1 p.2) e := rfl
      have hkeys : Dict.keys (p :: e) = p.1 :: Dict.keys e := rfl
      rw [hstep, ih, Dict.mem_keys_set, hkeys, List.mem_cons]
      tauto

theorem Dict.nodup_keys_update {d : Dict α} (h : d.keys.Nodup) (e : Dict α) :
    (Dict.update d e).keys.Nodup := by
  induction e generalizing d with
  | nil => exact h
  | cons p e ih => exact ih (Dict.nodup_keys_set h p.1 p.2)

/-- A key that is not among the new ones keeps its value. -/
theorem Dict.lookup_update_of_not_mem (d : Dict α) {e : Dict α} {k : PyStr} (h : k ∉ e.keys) :
    (Dict.update d e).lookup k = d.lookup k := by
  induction e generalizing d with
  | nil => rfl
  | cons p e ih =>
      obtain ⟨hne, hrest⟩ := List.ne_and_not_mem_of_not_mem_cons h
      show (Dict.update (d.set p.1 p.2) e).lookup k = d.lookup k
      rw [ih _ hrest, Dict.lookup_set_of_ne d p.2 hne]

/-- A new key gets its new value. -/
theorem Dict.lookup_update_of_mem (d : Dict α) {e : Dict α} {k : PyStr} {v : α}
    (hsame : ∀ p ∈ e, p.1 = k → p.2 = v) (h : k ∈ e.keys) :
    (Dict.update d e).lookup k = some v := by
  induction e generalizing d with
  | nil => exact absurd h List.not_mem_nil
  | cons p e ih =>
      obtain ⟨hp, hrest⟩ := List.forall_mem_cons.mp hsame
      show (Dict.update (d.set p.1 p.2) e).lookup k = some v
      by_cases hk : k ∈ Dict.keys e
      · exact ih _ hrest hk
      · obtain rfl : k = p.1 := (List.mem_cons.mp h).resolve_right hk
        rw [Dict.lookup_update_of_not_mem _ hk, Dict.lookup_set_self, hp rfl]

end Dict

/-! ### Comprehensions that may fail -/

theorem mapM_some {α β : Type} {f : α → Option β} {as : List α} {bs : List β} :
    as.mapM f = some bs ↔ List.Forall₂ (fun a b => f a = some b) as bs := by
  induction as generalizing bs with
  | nil => simp [eq_comm]
  | cons a as ih =>
      rw [List.mapM_cons, List.forall₂_cons_left_iff]
      constructor
      · intro h
        obtain ⟨b, hb, h⟩ := Option.bind_eq_some_iff.mp h
        obtain ⟨cs, hcs, h⟩ := Option.bind_eq_some_iff.mp h
        exact ⟨b, cs, hb, ih.mp hcs, (Option.some.inj h).symm⟩
      · rintro ⟨b, cs, hb, hcs, rfl⟩
        rw [hb, ih.mpr hcs]
        rfl

theorem mapM_ok {α β ε : Type} {f : α → Except ε β} {as : List α} {bs : List β} :
    as.mapM f = .ok bs ↔ List.Forall₂ (fun a b => f a = .ok b) as bs := by
  induction as generalizing bs with
  | nil => exact ⟨fun h => by cases h; exact .nil, fun h => by cases h; rfl⟩
  | cons a as ih =>
      rw [List.mapM_cons, List.forall₂_cons_left_iff]
      constructor
      · intro h
        rcases ha : f a with e | b
        · rw [ha] at h
          exact absurd h (by rintro ⟨⟩)
        · rcases has : as.mapM f with e | cs
          · rw [ha, has] at h
            exact absurd h (by rintro ⟨⟩)
          · rw [ha, has] at h
            exact ⟨b, cs, rfl, ih.mp has, (Except.ok.inj h).symm⟩
      · rintro ⟨b, cs, hb, hcs, rfl⟩
        rw [hb, ih.mpr hcs]
        rfl

section Related

variable {α β γ : Type} {R : α → β → Prop} {as : List α} {bs : List β}

theorem related_left (h : List.Forall₂ R as bs) {b : β} (hb : b ∈ bs) : ∃ a ∈ as, R a b := by
  induction h with
  | nil => exact absurd hb List.not_mem_nil
  | cons hab _ ih =>
      rcases List.mem_cons.mp hb with rfl | hb
      · exact ⟨_, List.mem_cons_self, hab⟩
      · obtain ⟨a, ha, hr⟩ := ih hb
        exact ⟨a, List.mem_cons_of_mem _ ha, hr⟩

theorem related_imp {S : α → β → Prop} (h : List.Forall₂ R as bs)
    (himp : ∀ a ∈ as, ∀ b, R a b → S a b) : List.Forall₂ S as bs := by
  induction h with
  | nil => exact .nil
  | cons hab _ ih =>
      obtain ⟨ha, has⟩ := List.forall_mem_cons.mp himp
      exact .cons (ha _ hab) (ih has)

theorem related_right (h : List.Forall₂ R as bs) {a : α} (ha : a ∈ as) : ∃ b ∈ bs, R a b :=
  related_left h.flip ha

theorem related_map {f : α → γ} {g : β → γ} (h : List.Forall₂ R as bs)
    (hfg : ∀ a b, R a b → f a = g b) : as.map f = bs.map g := by
  induction h with
  | nil => rfl
  | cons hab _ ih => rw [List.map_cons, List.map_cons, hfg _ _ hab, ih]

theorem exists_related (h : ∀ a ∈ as, ∃ b, R a b) : ∃ bs, List.Forall₂ R as bs := by
  induction as with
  | nil => exact ⟨[], .nil⟩
  | cons a as ih =>
      obtain ⟨⟨b, hb⟩, hrest⟩ := List.forall_mem_cons.mp h
      obtain ⟨bs, hbs⟩ := ih hrest
      exact ⟨b :: bs, .cons hb hbs⟩

theorem exists_mapM_ok {ε : Type} {f : α → Except ε β} :
    (∃ bs, as.mapM f = .ok bs) ↔ ∀ a ∈ as, ∃ b, f a = .ok b := by
  constructor
  · rintro ⟨bs, hbs⟩ a ha
    obtain ⟨b, -, hb⟩ := related_right (mapM_ok.mp hbs) ha
    exact ⟨b, hb⟩
  · intro hall
    obtain ⟨bs, hbs⟩ := exists_related hall
    exact ⟨bs, mapM_ok.mpr hbs⟩

theorem exists_mapM_some {f : α → Option β} :
    (∃ bs, as.mapM f = some bs) ↔ ∀ a ∈ as, ∃ b, f a = some b := by
  constructor
  · rintro ⟨bs, hbs⟩ a ha
    obtain ⟨b, -, hb⟩ := related_right (mapM_some.mp hbs) ha
    exact ⟨b, hb⟩
  · intro hall
    obtain ⟨bs, hbs⟩ := exists_related hall
    exact ⟨bs, mapM_some.mpr hbs⟩

end Related

theorem isSome_mapM {α β : Type} {f : α → Option β} {as : List α} :
    (as.mapM f).isSome = true ↔ ∀ a ∈ as, (f a).isSome = true := by
  induction as with
  | nil => simp
  | cons a as ih =>
      rw [List.mapM_cons, List.forall_mem_cons, ← ih]
      rcases ha : f a with - | b
      · simp
      · rcases has : as.mapM f with - | bs <;> simp

/-- `v[k]` on a dictionary, `none` where it has no such key or is no dictionary. -/
def Json.get? : Json F → PyStr → Option (Json F)
  | .obj d, k => d.lookup k
  | _, _ => none

/-- The text, the list, the dictionary or the integer that a value is, by exact type. -/
def Json.str? : Json F → Option PyStr
  | .str s => some s
  | _ => none
def Json.arr? : Json F → Option (List (Json F))
  | .arr xs => some xs
  | _ => none
def Json.obj? : Json F → Option (Dict (Json F))
  | .obj d => some d
  | _ => none
def Json.int? : Json F → Option ℤ
  | .int i => some i
  | _ => none

/-- A list of texts as a value, and the texts of a list of texts. -/
def strs (ss : List PyStr) : Json F := .arr (ss.map .str)
def Json.strs? (v : Json F) : Option (List PyStr) := v.arr?.bind fun xs => xs.mapM Json.str?

@[simp] theorem Json.strs?_strs (ss : List PyStr) : (strs ss : Json F).strs? = some ss := by
  have go : (ss.map Json.str).mapM (Json.str? (F := F)) = some ss := by
    induction ss with
    | nil => rfl
    | cons s ss ih => simp only [List.map_cons, List.mapM_cons, Json.str?, ih]; rfl
  exact go

theorem Json.str?_eq_some {v : Json F} {s : PyStr} : v.str? = some s ↔ v = .str s := by
  cases v <;> simp [Json.str?]

theorem Json.arr?_eq_some {v : Json F} {xs : List (Json F)} : v.arr? = some xs ↔ v = .arr xs := by
  cases v <;> simp [Json.arr?]

theorem Json.obj?_eq_some {v : Json F} {d : Dict (Json F)} : v.obj? = some d ↔ v = .obj d := by
  cases v <;> simp [Json.obj?]

theorem Json.int?_eq_some {v : Json F} {i : ℤ} : v.int? = some i ↔ v = .int i := by
  cases v <;> simp [Json.int?]

/-! ### Python equality -/

section Equality

variable [Runtime F]

mutual
/-- `v == w`: numbers compare across types and dictionaries without regard to order. -/
def pyEq : Json F → Json F → Bool
  | .null, .null => true
  | .bool a, .bool b => a == b
  | .bool a, .int j => (if a then 1 else 0) == j
  | .bool a, .float y => Runtime.floatEqInt y (if a then 1 else 0)
  | .int i, .bool b => i == (if b then 1 else 0)
  | .int i, .int j => i == j
  | .int i, .float y => Runtime.floatEqInt y i
  | .float x, .bool b => Runtime.floatEqInt x (if b then 1 else 0)
  | .float x, .int j => Runtime.floatEqInt x j
  | .float x, .float y => Runtime.floatEq x y
  | .str s, .str t => s == t
  | .arr xs, .arr ys => pyEqList xs ys
  | .obj d, .obj e => d.length == e.length && pyEqDict d e
  | _, _ => false
/-- `xs == ys` on lists. -/
def pyEqList : List (Json F) → List (Json F) → Bool
  | [], [] => true
  | x :: xs, y :: ys => pyEq x y && pyEqList xs ys
  | _, _ => false
/-- Every entry of the one dictionary has its equal in the other. -/
def pyEqDict : List (PyStr × Json F) → List (PyStr × Json F) → Bool
  | [], _ => true
  | (k, v) :: d, e =>
      (match e.lookup k with
        | some w => pyEq v w
        | none => false) && pyEqDict d e
end

theorem pyEq_str {s : PyStr} {v : Json F} : pyEq (.str s) v = true ↔ v = .str s := by
  cases v with
  | str t =>
      rw [pyEq, beq_iff_eq, Json.str.injEq]
      exact eq_comm
  | _ => simp [pyEq]

theorem pyEqList_strs {ss : List PyStr} {ys : List (Json F)} :
    pyEqList (ss.map .str) ys = true ↔ ys = ss.map .str := by
  induction ss generalizing ys with
  | nil => cases ys <;> simp [pyEqList]
  | cons s ss ih => cases ys <;> simp [pyEqList, pyEq_str, ih]

theorem pyEq_strs {ss : List PyStr} {v : Json F} :
    pyEq (.arr (ss.map .str)) v = true ↔ v = .arr (ss.map .str) := by
  cases v <;> simp [pyEq, pyEqList_strs]

theorem pyEqDict_iff {d e : Dict (Json F)} :
    pyEqDict d e = true ↔ ∀ p ∈ d, ∃ w, e.lookup p.1 = some w ∧ pyEq p.2 w = true := by
  induction d with
  | nil => simp [pyEqDict]
  | cons p d ih =>
      obtain ⟨k, v⟩ := p
      rcases h : e.lookup k with - | w <;> simp [pyEqDict, h, ih]

end Equality

/-! ### `sort_keys` -/

mutual
/-- The value with the keys of every dictionary in order. -/
def Json.sortKeys : Json F → Json F
  | .arr xs => .arr (sortKeysList xs)
  | .obj d => .obj ((sortKeysDict d).insertionSort fun a b => a.1 ≤ b.1)
  | v => v
def sortKeysList : List (Json F) → List (Json F)
  | [] => []
  | x :: xs => x.sortKeys :: sortKeysList xs
def sortKeysDict : List (PyStr × Json F) → List (PyStr × Json F)
  | [] => []
  | (k, v) :: d => (k, v.sortKeys) :: sortKeysDict d
end

theorem sortKeysList_eq_map (xs : List (Json F)) : sortKeysList xs = xs.map Json.sortKeys := by
  induction xs with
  | nil => rfl
  | cons x xs ih => simp [sortKeysList, ih]

theorem sortKeysDict_eq_map (d : Dict (Json F)) :
    sortKeysDict d = d.map fun e => (e.1, e.2.sortKeys) := by
  induction d with
  | nil => rfl
  | cons e d ih => simp [sortKeysDict, ih]

/-- A dictionary with its keys in order has the same entries. -/
theorem sortKeys_obj {d : Dict (Json F)} (h : d.keys.Nodup) :
    ∃ e : Dict (Json F), (Json.obj d).sortKeys = .obj e ∧ e.keys.Nodup ∧
      ∀ k, e.lookup k = (d.lookup k).map Json.sortKeys := by
  have hperm := List.perm_insertionSort (fun a b : PyStr × Json F => a.1 ≤ b.1) (sortKeysDict d)
  have hkeys : (sortKeysDict d).map Prod.fst = d.keys := by
    simp [sortKeysDict_eq_map, Dict.keys, Function.comp_def]
  have hnodup : (Dict.keys ((sortKeysDict d).insertionSort fun a b => a.1 ≤ b.1)).Nodup := by
    rw [Dict.keys, (hperm.map Prod.fst).nodup_iff, hkeys]
    exact h
  refine ⟨_, rfl, hnodup, fun k => ?_⟩
  rcases hv : d.lookup k with - | v
  · refine List.lookup_eq_none_iff.mpr fun e he => ?_
    rw [List.mem_insertionSort, sortKeysDict_eq_map] at he
    obtain ⟨p, hp, rfl⟩ := List.mem_map.mp he
    exact List.lookup_eq_none_iff.mp hv p hp
  · refine Dict.lookup_eq_some_of_mem hnodup ?_
    rw [List.mem_insertionSort, sortKeysDict_eq_map]
    exact List.mem_map.mpr ⟨(k, v), Dict.mem_of_lookup_eq_some hv, rfl⟩

/-! ### `json.dumps` -/

/-- The digits of `n` in base 16, exactly `w` of them. -/
def hexFixed : ℕ → ℕ → PyStr
  | 0, _ => []
  | w + 1, n => hexFixed w (n / 16) ++ [hexDigit (n % 16)]

/-- `\uXXXX`. -/
def uEscape (n : ℕ) : PyStr := py "\\u" ++ hexFixed 4 n

/-- One code point inside a JSON string, all of it in ASCII. -/
def escapeChar (c : CodePoint) : PyStr :=
  if c = ch '"' then py "\\\""
  else if c = ch '\\' then py "\\\\"
  else if c = ch '\n' then py "\\n"
  else if c = ch '\r' then py "\\r"
  else if c = ch '\t' then py "\\t"
  else if c.val = 0x0c then py "\\f"
  else if c.val = 0x08 then py "\\b"
  else if 0x20 ≤ c.val ∧ c.val ≤ 0x7e then [c]
  else if c.val < 0x10000 then uEscape c.val
  else uEscape (0xd800 + (c.val - 0x10000) / 0x400) ++
    uEscape (0xdc00 + (c.val - 0x10000) % 0x400)

/-- The body of a JSON string. -/
def escape (s : PyStr) : PyStr := s.flatMap escapeChar

/-- A JSON string. -/
def quote (s : PyStr) : PyStr := ch '"' :: (escape s ++ [ch '"'])

/-- The layout options of `json.dumps`. -/
structure Style where
  /-- What stands after the comma between two items. -/
  itemPad : PyStr
  /-- What stands after the colon of an entry. -/
  keyPad : PyStr
  /-- The indentation, if any. -/
  indent : Option ℕ

/-- `json.dumps(v)`. -/
def plain : Style := ⟨py " ", py " ", none⟩

/-- `json.dumps(v, separators=(",", ":"))`. -/
def compact : Style := ⟨[], [], none⟩

/-- `json.dumps(v, indent=2)`. -/
def indent2 : Style := ⟨[], py " ", some 2⟩

/-- The line break before an item at nesting `lvl`, empty without indentation. -/
def Style.newline (st : Style) (lvl : ℕ) : PyStr :=
  match st.indent with
  | none => []
  | some n => ch '\n' :: List.replicate (n * lvl) (ch ' ')

section Render

variable [Runtime F]

mutual
/-- `json.dumps` at nesting `lvl`. -/
def render (st : Style) (lvl : ℕ) : Json F → PyStr
  | .null => py "null"
  | .bool b => if b then py "true" else py "false"
  | .int i => intText i
  | .float x => Runtime.floatJson x
  | .str s => quote s
  | .arr [] => py "[]"
  | .arr (x :: xs) =>
      ch '[' :: (st.newline (lvl + 1) ++ render st (lvl + 1) x ++ renderElems st (lvl + 1) xs ++
        st.newline lvl ++ [ch ']'])
  | .obj [] => py "\x7b\x7d"
  | .obj ((k, v) :: d) =>
      ch '\x7b' :: (st.newline (lvl + 1) ++ quote k ++ ch ':' :: st.keyPad ++
        render st (lvl + 1) v ++ renderMembers st (lvl + 1) d ++ st.newline lvl ++ [ch '\x7d'])
/-- The items after the first, each with the comma before it. -/
def renderElems (st : Style) (lvl : ℕ) : List (Json F) → PyStr
  | [] => []
  | x :: xs =>
      ch ',' :: (st.itemPad ++ st.newline lvl ++ render st lvl x ++ renderElems st lvl xs)
/-- The entries after the first, each with the comma before it. -/
def renderMembers (st : Style) (lvl : ℕ) : List (PyStr × Json F) → PyStr
  | [] => []
  | (k, v) :: d =>
      ch ',' :: (st.itemPad ++ st.newline lvl ++ quote k ++ ch ':' :: st.keyPad ++
        render st lvl v ++ renderMembers st lvl d)
end

/-- `json.dumps(v, ...)`. -/
def dumps (st : Style) (v : Json F) : PyStr := render st 0 v

/-- `json.dumps(v, sort_keys=True, ...)`. -/
def dumpsSorted (st : Style) (v : Json F) : PyStr := render st 0 v.sortKeys

end Render

/-! ### `repr` -/

section Repr

variable [Runtime F]

/-- One code point inside the `repr` of a string quoted with `q`. -/
def reprChar (F : Type) [Runtime F] (q : CodePoint) (c : CodePoint) : PyStr :=
  if c = q ∨ c = ch '\\' then [ch '\\', c]
  else if c = ch '\t' then py "\\t"
  else if c = ch '\n' then py "\\n"
  else if c = ch '\r' then py "\\r"
  else if 0x20 ≤ c.val ∧ c.val < 0x7f then [c]
  else if 0x80 ≤ c.val ∧ Runtime.isPrintable F c then [c]
  else if c.val < 0x100 then py "\\x" ++ hexFixed 2 c.val
  else if c.val < 0x10000 then uEscape c.val
  else py "\\U" ++ hexFixed 8 c.val

/-- The quote `repr` picks: single, unless the text has single quotes and no double ones. -/
def reprQuote (s : PyStr) : CodePoint :=
  if ch '\'' ∈ s ∧ ch '"' ∉ s then ch '"' else ch '\''

/-- `repr(s)` of a string. -/
def reprStr (F : Type) [Runtime F] (s : PyStr) : PyStr :=
  reprQuote s :: (s.flatMap (reprChar F (reprQuote s)) ++ [reprQuote s])

/-- One octet inside the `repr` of `bytes`. -/
def reprByte (q : CodePoint) (b : UInt8) : PyStr :=
  let c : CodePoint := ⟨b.toNat, by have := b.toNat_lt; omega⟩
  if c = q ∨ c = ch '\\' then [ch '\\', c]
  else if c = ch '\t' then py "\\t"
  else if c = ch '\n' then py "\\n"
  else if c = ch '\r' then py "\\r"
  else if 0x20 ≤ c.val ∧ c.val < 0x7f then [c]
  else py "\\x" ++ hexFixed 2 c.val

/-- `repr(b)` of `bytes`. -/
def reprBytes (b : Bytes) : PyStr :=
  let q := if 0x27 ∈ b ∧ 0x22 ∉ b then ch '"' else ch '\''
  ch 'b' :: q :: (b.flatMap (reprByte q) ++ [q])

/-- Items with `, ` between them. -/
def commaJoin : List PyStr → PyStr
  | [] => []
  | [s] => s
  | s :: t :: r => s ++ py ", " ++ commaJoin (t :: r)

mutual
/-- `repr(v)`. -/
def pyRepr : Json F → PyStr
  | .null => py "None"
  | .bool b => if b then py "True" else py "False"
  | .int i => intText i
  | .float x => Runtime.floatRepr x
  | .str s => reprStr F s
  | .arr xs => ch '[' :: (commaJoin (pyReprList xs) ++ [ch ']'])
  | .obj d => ch '\x7b' :: (commaJoin (pyReprDict d) ++ [ch '\x7d'])
def pyReprList : List (Json F) → List PyStr
  | [] => []
  | x :: xs => pyRepr x :: pyReprList xs
def pyReprDict : List (PyStr × Json F) → List PyStr
  | [] => []
  | (k, v) :: d => (reprStr F k ++ py ": " ++ pyRepr v) :: pyReprDict d
end

/-- `str(v)`. -/
def pyStr : Json F → PyStr
  | .str s => s
  | v => pyRepr v

end Repr

end Py
