/-
ReSchema/Canonical.lean

The canonicaliser (`exec/canonical.py`, rules 2.1).

`canonicalize` rewrites a trace in one pass over its events: address-shaped
texts become `ADDR_<n>`, descriptors that an open with write intent returned
become `FD_<n>`, absolute paths inside other texts become `PATH_<n>`, each
numbered by first sighting.  The pass carries three tables and the walk over
the open calls (`OpenWalk`), which the slices of the comparison repeat.

On the texts of a hook (`Plain`) there is no path to replace, and an ordinal
once given never changes.  So the pass has a closed form: every event is
relabelled by one table, that of the whole stream (`canonEvents_raw`).
-/
import ReSchema.Trace
import ReSchema.Py.Sightings

namespace ReSchema

open Py

/-! ### Tokens -/

/-- A lower-case hexadecimal digit. -/
def isLowerHex (c : CodePoint) : Bool :=
  (0x30 ≤ c.val && c.val ≤ 0x39) || (0x61 ≤ c.val && c.val ≤ 0x66)

/-- `ADDR.fullmatch(a)`: `0x` and at least six lower-case hexadecimal digits. -/
def isAddr : PyStr → Bool
  | z :: x :: r => z == ch '0' && x == ch 'x' && 6 ≤ r.length && r.all isLowerHex
  | _ => false

/-- The name `_mapper(prefix)` gives to `a`, whatever the table already has. -/
def token (label : String) (T : List PyStr) (a : PyStr) : PyStr :=
  py label ++ ch '_' :: natText (ordinal T a)

/-! ### Paths inside a text -/

section Paths

variable (F : Type) [Runtime F]

/-- `[\w.-]`. -/
def isPathChar (c : CodePoint) : Bool := Runtime.isWord F c || c == ch '.' || c == ch '-'

/-- The names and slashes that follow a slash, as far as the expression goes: what it takes,
what is left, and the number of names. -/
def pathNames : ℕ → PyStr → PyStr × PyStr × ℕ
  | 0, s => ([], s, 0)
  | fuel + 1, s =>
      let name := s.takeWhile (isPathChar F)
      let rest := s.dropWhile (isPathChar F)
      if name = [] then ([], s, 0)
      else match rest with
        | [] => (name, [], 1)
        | c :: r =>
            if c = ch '/' ∧ 0 < (pathNames fuel r).2.2 then
              (name ++ ch '/' :: (pathNames fuel r).1, (pathNames fuel r).2.1,
                (pathNames fuel r).2.2 + 1)
            else (name, rest, 1)

/-- `ABSPATH.sub(path_of, s)` with the table of paths; every step takes at least one code
point, so the length of the text is fuel enough. -/
def absPathSub : ℕ → List PyStr → PyStr → List PyStr × PyStr
  | 0, P, s => (P, s)
  | _ + 1, P, [] => (P, [])
  | fuel + 1, P, c :: r =>
      if c = ch '/' ∧ 2 ≤ (pathNames F r.length r).2.2 then
        let path := ch '/' :: (pathNames F r.length r).1
        let next := absPathSub fuel (sight P path) (pathNames F r.length r).2.1
        (next.1, token "PATH" P path ++ next.2)
      else ((absPathSub fuel P r).1, c :: (absPathSub fuel P r).2)

end Paths

/-! ### Open calls -/

/-- `OPEN_FLAGS`, `_OPEN_FAMILY`. -/
def openFamily : List PyStr := [py "openat", py "open", py "creat"]

/-- The index of the flags among the arguments. -/
def flagsIndex (sc : PyStr) : ℕ := if sc = py "openat" then 2 else 1

/-- `_write_intent(sc, args)`: the access mode is not read-only, or `O_CREAT` is set. -/
def writeIntent (sc : PyStr) (args : List PyStr) : Bool :=
  if sc = py "creat" then true
  else match args[flagsIndex sc]?.bind intHex with
    | none => false
    | some flags => flags % 4 ≠ 0 || flags / 0x40 % 2 ≠ 0

/-- The walk over the open calls.  `fds` has the keys of the table of descriptors in order;
the name of a descriptor is its index. -/
structure OpenWalk where
  fds : List PyStr
  pending : Bool

/-- What an exit from an open call with a pending write intent adds. -/
def noteResult (fds : List PyStr) : Option (Option PyStr) → List PyStr
  | some (some res) => if (py "0x").isPrefixOf res then sight fds res else fds
  | _ => fds

def OpenWalk.step (w : OpenWalk) (e : Event) : OpenWalk :=
  if e.sc ∈ openFamily ∧ e.phase = py "enter" then { w with pending := writeIntent e.sc e.args }
  else if e.sc ∈ openFamily ∧ e.phase = py "exit" then
    ⟨if w.pending then noteResult w.fds e.result else w.fds, false⟩
  else w

/-- The walk over a whole stream. -/
def openWalk (w : OpenWalk) (evs : List Event) : OpenWalk := evs.foldl OpenWalk.step w

/-- The entry into an open call. -/
def OpenEntry (e : Event) : Prop := e.sc ∈ openFamily ∧ e.phase = py "enter"

/-- The exit from an open call. -/
def OpenExit (e : Event) : Prop := e.sc ∈ openFamily ∧ e.phase = py "exit"

instance (e : Event) : Decidable (OpenEntry e) := by unfold OpenEntry; infer_instance
instance (e : Event) : Decidable (OpenExit e) := by unfold OpenExit; infer_instance

theorem OpenWalk.step_entry {e : Event} (h : OpenEntry e) (w : OpenWalk) :
    w.step e = ⟨w.fds, writeIntent e.sc e.args⟩ := if_pos h

theorem not_entry_of_exit {e : Event} (h : OpenExit e) : ¬ OpenEntry e := by
  intro h'
  have := h.2.symm.trans h'.2
  rw [py_inj] at this
  exact absurd this (by decide)

theorem OpenWalk.step_exit {e : Event} (h : OpenExit e) (w : OpenWalk) :
    w.step e = ⟨if w.pending then noteResult w.fds e.result else w.fds, false⟩ :=
  (if_neg (not_entry_of_exit h)).trans (if_pos h)

theorem OpenWalk.step_other {e : Event} (h : ¬ OpenEntry e) (h' : ¬ OpenExit e) (w : OpenWalk) :
    w.step e = w :=
  (if_neg h).trans (if_neg h')

/-- `FD_CARRIERS`. -/
def fdCarriers : List PyStr := [py "read", py "write", py "writev", py "close"]

/-- The arguments with a known descriptor in front renamed. -/
def fdArgs (fds : List PyStr) (sc : PyStr) (args : List PyStr) : List PyStr :=
  match args with
  | [] => []
  | a :: as => if sc ∈ fdCarriers ∧ a ∈ fds then token "FD" fds a :: as else a :: as

/-! ### The pass -/

/-- The tables that the pass carries. -/
structure CanonState where
  opens : OpenWalk
  addrs : List PyStr
  paths : List PyStr

section Pass

variable (F : Type) [Runtime F]

/-- The arguments of one event. -/
def canonArgs (A P : List PyStr) : List PyStr → List PyStr × List PyStr × List PyStr
  | [] => (A, P, [])
  | a :: as =>
      if isAddr a then
        let next := canonArgs (sight A a) P as
        (next.1, next.2.1, token "ADDR" A a :: next.2.2)
      else
        let sub := absPathSub F a.length P a
        let next := canonArgs A sub.1 as
        (next.1, next.2.1, sub.2 :: next.2.2)

/-- The result of one event. -/
def canonResult (A : List PyStr) : Option (Option PyStr) → List PyStr × Option (Option PyStr)
  | some (some r) => if isAddr r then (sight A r, some (some (token "ADDR" A r)))
      else (A, some (some r))
  | r => (A, r)

/-- One event. -/
def CanonState.step (s : CanonState) (e : Event) : CanonState × Event :=
  let opens := s.opens.step e
  let args := canonArgs F s.addrs s.paths (fdArgs opens.fds e.sc e.args)
  let result := canonResult args.1 e.result
  (⟨opens, result.1, args.2.1⟩, { e with args := args.2.2, result := result.2 })

/-- All events. -/
def canonEvents : CanonState → List Event → List Event
  | _, [] => []
  | s, e :: evs => (s.step F e).2 :: canonEvents (s.step F e).1 evs

/-- The empty tables. -/
def CanonState.init : CanonState := ⟨⟨[], false⟩, [], []⟩

/-- The components of a POSIX path, without the empty ones and the dots. -/
def pathParts (s : PyStr) : List PyStr :=
  (s.splitOn (ch '/')).filter fun p => p ≠ [] ∧ p ≠ py "."

/-- `Path(s).name`. -/
def pathName (s : PyStr) : PyStr := ((pathParts s).getLast?).getD []

/-- `canonicalize(trace)`. -/
def canonicalize (t : Trace) : Trace :=
  { t with events := canonEvents F .init t.events, argv0 := pathName t.argv0 }

end Pass

/-! ### Plain texts -/

section Plain

variable {F : Type} [Runtime F]

theorem absPathSub_plain {s : PyStr} (h : ch '/' ∉ s) (fuel : ℕ) (P : List PyStr) :
    absPathSub F fuel P s = (P, s) := by
  induction s generalizing fuel with
  | nil => cases fuel <;> rfl
  | cons c r ih =>
      obtain ⟨hc, hr⟩ := List.ne_and_not_mem_of_not_mem_cons h
      cases fuel with
      | zero => rfl
      | succ fuel => rw [absPathSub, if_neg (fun hs => hc hs.1.symm), ih hr]

/-- What a text without a path becomes when the table of addresses is `T`. -/
def canonArg (T : List PyStr) (a : PyStr) : PyStr := if isAddr a then token "ADDR" T a else a

/-- The table of addresses after some texts. -/
def sightAddrs (A : List PyStr) (as : List PyStr) : List PyStr := sights A (as.filter isAddr)

theorem sightAddrs_cons (A : List PyStr) (a : PyStr) (as : List PyStr) :
    sightAddrs A (a :: as) = sightAddrs (if isAddr a then sight A a else A) as := by
  by_cases h : isAddr a <;> simp [sightAddrs, h, sights]

theorem sightAddrs_append (A : List PyStr) (as bs : List PyStr) :
    sightAddrs A (as ++ bs) = sightAddrs (sightAddrs A as) bs := by
  simp [sightAddrs, sights]

theorem prefix_sightAddrs (A : List PyStr) (as : List PyStr) : A <+: sightAddrs A as :=
  prefix_sights A _

/-- A token keeps its name in every later table. -/
theorem token_of_prefix {label : String} {A T : List PyStr} {a : PyStr}
    (h : sight A a <+: T) : token label A a = token label T a := by
  rw [token, token, ordinal_of_prefix h]

theorem canonArgs_plain {as : List PyStr} (h : ∀ a ∈ as, ch '/' ∉ a) (A P : List PyStr)
    {T : List PyStr} (hT : sightAddrs A as <+: T) :
    canonArgs F A P as = (sightAddrs A as, P, as.map (canonArg T)) := by
  induction as generalizing A with
  | nil => rfl
  | cons a as ih =>
      obtain ⟨ha, has⟩ := List.forall_mem_cons.mp h
      rw [sightAddrs_cons] at hT ⊢
      by_cases hp : isAddr a
      · simp only [hp, if_true] at hT ⊢
        have htok : token "ADDR" A a = token "ADDR" T a :=
          token_of_prefix ((prefix_sightAddrs _ _).trans hT)
        simp only [canonArgs, hp, if_true, ih has _ hT, List.map_cons, canonArg, htok]
      · simp only [hp, Bool.false_eq_true, if_false] at hT ⊢
        simp only [canonArgs, hp, Bool.false_eq_true, if_false, absPathSub_plain ha, ih has _ hT,
          List.map_cons, canonArg]

theorem slash_not_mem_token (label : String) (h : '/' ∉ label.toList) (T : List PyStr)
    (a : PyStr) : ch '/' ∉ token label T a := by
  intro hm
  rw [token, List.mem_append, List.mem_cons] at hm
  rcases hm with hm | hm | hm
  · obtain ⟨c, hc, he⟩ := List.mem_map.mp hm
    exact h (ch_inj.mp he ▸ hc)
  · exact absurd (ch_inj.mp hm) (by decide)
  · have := isDigit_of_mem_natText hm
    exact absurd this (by decide)

theorem slash_not_mem_fdArgs {fds : List PyStr} {sc : PyStr} {args : List PyStr}
    (h : ∀ a ∈ args, ch '/' ∉ a) : ∀ a ∈ fdArgs fds sc args, ch '/' ∉ a := by
  cases args with
  | nil => exact h
  | cons b as =>
      intro a ha
      simp only [fdArgs] at ha
      split_ifs at ha
      · rcases List.mem_cons.mp ha with rfl | ha
        · exact slash_not_mem_token "FD" (by decide) fds b
        · exact h a (List.mem_cons_of_mem b ha)
      · exact h a ha

/-! ### The closed form of the pass -/

/-- The text of a result, if there is one. -/
def resultTexts : Option (Option PyStr) → List PyStr
  | some (some r) => [r]
  | _ => []

/-- The texts of an event in the order in which they are met, descriptors renamed. -/
def eventTexts (fds : List PyStr) (e : Event) : List PyStr :=
  fdArgs fds e.sc e.args ++ resultTexts e.result

/-- The event under a fixed table of addresses. -/
def relabel (T fds : List PyStr) (e : Event) : Event :=
  { e with
    args := (fdArgs fds e.sc e.args).map (canonArg T)
    result := e.result.map (Option.map (canonArg T)) }

/-- All events under a fixed table of addresses. -/
def relabelAll (T : List PyStr) : OpenWalk → List Event → List Event
  | _, [] => []
  | w, e :: evs => relabel T (w.step e).fds e :: relabelAll T (w.step e) evs

theorem length_relabelAll (T : List PyStr) (w : OpenWalk) (evs : List Event) :
    (relabelAll T w evs).length = evs.length := by
  induction evs generalizing w with
  | nil => rfl
  | cons e evs ih => exact congrArg (· + 1) (ih (w.step e))

/-- The table of addresses of a stream. -/
def addrTable (A : List PyStr) : OpenWalk → List Event → List PyStr
  | _, [] => A
  | w, e :: evs => addrTable (sightAddrs A (eventTexts (w.step e).fds e)) (w.step e) evs

/-- The texts of a stream in the order in which they are met. -/
def streamTexts : OpenWalk → List Event → List PyStr
  | _, [] => []
  | w, e :: evs => eventTexts (w.step e).fds e ++ streamTexts (w.step e) evs

theorem streamTexts_append (w : OpenWalk) (xs ys : List Event) :
    streamTexts w (xs ++ ys) = streamTexts w xs ++ streamTexts (openWalk w xs) ys := by
  induction xs generalizing w with
  | nil => rfl
  | cons e xs ih => simp [streamTexts, ih, openWalk]

theorem addrTable_eq (A : List PyStr) (w : OpenWalk) (evs : List Event) :
    addrTable A w evs = sightAddrs A (streamTexts w evs) := by
  induction evs generalizing A w with
  | nil => rfl
  | cons e evs ih => rw [addrTable, ih, streamTexts, sightAddrs_append]

theorem mem_sightAddrs {A as : List PyStr} {a : PyStr} :
    a ∈ sightAddrs A as ↔ a ∈ A ∨ a ∈ as ∧ isAddr a := by
  rw [sightAddrs, mem_sights, List.mem_filter]

theorem prefix_addrTable (A : List PyStr) (w : OpenWalk) (evs : List Event) :
    A <+: addrTable A w evs := by
  rw [addrTable_eq]
  exact prefix_sightAddrs A _

theorem canonResult_plain (A : List PyStr) (res : Option (Option PyStr)) {T : List PyStr}
    (hT : sightAddrs A (resultTexts res) <+: T) :
    canonResult A res = (sightAddrs A (resultTexts res), res.map (Option.map (canonArg T))) := by
  rcases res with - | - | r
  · rfl
  · rfl
  · by_cases hr : isAddr r
    · have hs : sightAddrs A (resultTexts (some (some r))) = sight A r := by
        simp [resultTexts, sightAddrs, sights, hr]
      rw [hs] at hT ⊢
      simp [canonResult, hr, canonArg, token_of_prefix hT]
    · simp [canonResult, hr, canonArg, resultTexts, sightAddrs, sights]

theorem step_raw {e : Event} (h : e.Raw) (s : CanonState) {T : List PyStr}
    (hT : sightAddrs s.addrs (eventTexts (s.opens.step e).fds e) <+: T) :
    s.step F e = (⟨s.opens.step e, sightAddrs s.addrs (eventTexts (s.opens.step e).fds e), s.paths⟩,
      relabel T (s.opens.step e).fds e) := by
  have hslash := @slash_not_mem_fdArgs (s.opens.step e).fds e.sc e.args fun a ha => (h.1 a ha).1
  rw [eventTexts, sightAddrs_append] at hT ⊢
  have hargs := canonArgs_plain (F := F) hslash s.addrs s.paths ((prefix_sightAddrs _ _).trans hT)
  have hres := canonResult_plain _ e.result hT
  simp only [CanonState.step, hargs, hres, relabel]

/-- **The pass.**  A stream of hook events is relabelled by its own table of addresses, or by
any later one. -/
theorem canonEvents_raw {evs : List Event} (h : ∀ e ∈ evs, e.Raw) (s : CanonState)
    {T : List PyStr} (hT : addrTable s.addrs s.opens evs <+: T) :
    canonEvents F s evs = relabelAll T s.opens evs := by
  induction evs generalizing s with
  | nil => rfl
  | cons e evs ih =>
      obtain ⟨he, hevs⟩ := List.forall_mem_cons.mp h
      have hstep := step_raw (F := F) he s ((prefix_addrTable _ _ _).trans hT)
      rw [canonEvents, hstep, ih hevs _ hT]
      rfl

/-- The state after all events. -/
def CanonState.run (F : Type) [Runtime F] (s : CanonState) (evs : List Event) : CanonState :=
  evs.foldl (fun s e => (s.step F e).1) s

theorem canonEvents_append (s : CanonState) (xs ys : List Event) :
    canonEvents F s (xs ++ ys) = canonEvents F s xs ++ canonEvents F (s.run F xs) ys := by
  induction xs generalizing s with
  | nil => rfl
  | cons e xs ih => simp [canonEvents, ih, CanonState.run]

end Plain

end ReSchema
