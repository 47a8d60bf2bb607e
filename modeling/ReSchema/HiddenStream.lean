/-
ReSchema/HiddenStream.lean

The input space of a task (`hidden_input_stream` in `validate/program.py`).

The hidden suite draws its inputs from here.  Each draw is one argument, one
line of text, or raw octets, by the seed of the task; the packed-record seed
mixes packets of its own into its octets.  Octets are drawn with a NUL and with
one beyond ASCII, at two positions that cannot be the same.

`HiddenSuite` takes any stream of inputs.  With this one, whatever the random
numbers, no hidden input asks more of a model than a nominated one could
(`hidden_in_space`): it is within the limits of `cases.json`, and if it is text
the operation `experiment` takes it too.
-/
import ReSchema.Experiment
import ReSchema.PkfmtGrammar

namespace ReSchema

open Py C

/-! ### The stream -/

/-- How a seed takes its input. -/
inductive InputMode
  | argv
  | stdin
  | stdinBytes
  deriving DecidableEq

/-- `INPUT_MODE.get(seed_name, "argv")`. -/
def inputMode (seed : PyStr) : InputMode :=
  if seed = py "check" then .stdin
  else if seed = py "filewrite" ∨ seed = py "pkfmt" then .stdinBytes
  else .argv

/-- `_CHARSET`. -/
def charset : List CodePoint :=
  py "abcdefghijklmnopqrstuvwxyz" ++ py "ABCDEFGHIJKLMNOPQRSTUVWXYZ" ++ py "0123456789" ++
    py "!#$%&'()*+,-./:;<=>?@[]^_`\x7b|\x7d~"

/-- `rng.sample(range(n), 2)` by two numbers, from the `k`-th on. -/
def sampleTwo (stream : Stream) (k n : ℕ) : ℕ × ℕ :=
  let i := stream k % n
  let j := stream (k + 1) % (n - 1)
  (i, if j < i then j else j + 1)

/-- Random octets with the two corner cases in them, from the `k`-th call on. -/
def drawBytes (stream : Stream) (k : ℕ) : Bytes :=
  let n := (randint stream k 4 48).toNat
  let body := (List.range n).map fun i => UInt8.ofNat (stream (k + 1 + i))
  let corner := sampleTwo stream (k + 1 + n) n
  (body.set corner.1 0).set corner.2 (UInt8.ofNat (randint stream (k + 3 + n) 0x80 0xff).toNat)

/-- A short text, from the `k`-th call on. -/
def drawText (stream : Stream) (k : ℕ) : PyStr :=
  (List.range (randint stream k 1 24).toNat).map fun i => choice stream (k + 1 + i) charset

/-- One round of `hidden_input_stream`, with the numbers of its calls. -/
def hiddenInput (seed : PyStr) (stream : Stream) : List PyStr × Bytes :=
  if seed = py "pkfmt" ∧ randomBelow stream 0 5404319552844595 then
    ([], (pkfmtGrammarPacket stream 1).map UInt8.ofBitVec)
  else
    match inputMode seed with
    | .stdinBytes => ([], drawBytes stream (if seed = py "pkfmt" then 1 else 0))
    | .argv => ([drawText stream 0], [])
    | .stdin => ([], encode (drawText stream 0 ++ py "\n"))

/-- `hidden_input_stream(rng, modes, seed)`; each round has numbers of its own. -/
def hiddenInputStream (seed : PyStr) (streams : ℕ → Stream) (i : ℕ) : List PyStr × Bytes :=
  hiddenInput seed (streams i)

/-! ### What a round draws -/

/-- Two positions, and not one. -/
theorem sampleTwo_spec (stream : Stream) (k : ℕ) {n : ℕ} (h : 2 ≤ n) :
    (sampleTwo stream k n).1 < n ∧ (sampleTwo stream k n).2 < n ∧
      (sampleTwo stream k n).1 ≠ (sampleTwo stream k n).2 := by
  have hi : stream k % n < n := Nat.mod_lt _ (by omega)
  have hj : stream (k + 1) % (n - 1) < n - 1 := Nat.mod_lt _ (by omega)
  simp only [sampleTwo]
  split <;> omega

/-- Octets as they are drawn. -/
structure Corners (b : Bytes) : Prop where
  length_ge : 4 ≤ b.length
  length_le : b.length ≤ 48
  nul : (0 : UInt8) ∈ b
  high : ∃ x ∈ b, 0x80 ≤ x.toNat

theorem drawBytes_corners (stream : Stream) (k : ℕ) : Corners (drawBytes stream k) := by
  have hn := randint_mem stream k (show (4 : ℤ) ≤ 48 by decide)
  have hhi := randint_mem stream (k + 3 + (randint stream k 4 48).toNat)
    (show (0x80 : ℤ) ≤ 0xff by decide)
  obtain ⟨h1, h2, hne⟩ := sampleTwo_spec stream (k + 1 + (randint stream k 4 48).toNat)
    (n := (randint stream k 4 48).toNat) (by omega)
  have hlen : (drawBytes stream k).length = (randint stream k 4 48).toNat := by
    simp [drawBytes]
  have hbody : ((List.range (randint stream k 4 48).toNat).map fun i =>
      UInt8.ofNat (stream (k + 1 + i))).length = (randint stream k 4 48).toNat := by simp
  refine ⟨by omega, by omega, ?_, ?_⟩
  · -- the second corner stands elsewhere and leaves the first
    rw [drawBytes, List.mem_iff_getElem?]
    refine ⟨_, (List.getElem?_set_ne (Ne.symm hne)).trans (List.getElem?_set_self ?_)⟩
    rw [hbody]
    exact h1
  · have hmem : UInt8.ofNat (randint stream (k + 3 + (randint stream k 4 48).toNat) 0x80 0xff).toNat ∈
        drawBytes stream k := by
      rw [drawBytes]
      apply List.mem_set
      rw [List.length_set, hbody]
      exact h2
    refine ⟨_, hmem, ?_⟩
    rw [toNat_ofNat (by omega)]
    omega

theorem drawText_spec (stream : Stream) (k : ℕ) : (drawText stream k).length ≤ 24 ∧
    drawText stream k ≠ [] ∧ ∀ c ∈ drawText stream k, c ∈ charset := by
  have hn := randint_mem stream k (show (1 : ℤ) ≤ 24 by decide)
  have hlen : (drawText stream k).length = (randint stream k 1 24).toNat := by simp [drawText]
  refine ⟨by omega, ?_, ?_⟩
  · rw [← List.length_pos_iff]
    omega
  · rw [drawText, List.forall_mem_map]
    exact fun i _ => choice_mem stream _ (by decide)

/-- The inputs that are drawn for a seed. -/
inductive InSpace (seed : PyStr) : List PyStr × Bytes → Prop
  | word {s : PyStr} (hmode : inputMode seed = .argv) (hne : s ≠ []) (hlen : s.length ≤ 24)
      (hs : ∀ c ∈ s, c ∈ charset) : InSpace seed ([s], [])
  | line {s : PyStr} (hmode : inputMode seed = .stdin) (hne : s ≠ []) (hlen : s.length ≤ 24)
      (hs : ∀ c ∈ s, c ∈ charset) : InSpace seed ([], encode (s ++ py "\n"))
  | octets {b : Bytes} (hmode : inputMode seed = .stdinBytes) (hb : Corners b) : InSpace seed ([], b)
  | packet {p : List U8} (hseed : seed = py "pkfmt") (hlen : p.length ≤ 22)
      (hp : p[1]? = some 0x5A) : InSpace seed ([], p.map UInt8.ofBitVec)

theorem hiddenInput_space (seed : PyStr) (stream : Stream) :
    InSpace seed (hiddenInput seed stream) := by
  rw [hiddenInput]
  by_cases hpacket : seed = py "pkfmt" ∧ randomBelow stream 0 5404319552844595 = true
  · have hn := randint_mem stream 3 (show (0 : ℤ) ≤ 2 by decide)
    obtain ⟨hcount, hrecords⟩ := drawRecords_spec stream (randint stream 3 0 2).toNat 4
    have hbytes := hrecords.length_bytes_le
    have hlen : (pkfmtGrammarPacket stream 1).length = 4 +
        ((drawRecords stream (randint stream 3 0 2).toNat 4).flatMap DrawnRecord.bytes).length := by
      rw [Nat.add_comm]
      rfl
    rw [if_pos hpacket]
    exact .packet hpacket.1 (by omega) rfl
  · rw [if_neg hpacket]
    rcases hmode : inputMode seed with - | - | -
    all_goals dsimp only
    · obtain ⟨hlen, hne, hs⟩ := drawText_spec stream 0
      exact .word hmode hne hlen hs
    · obtain ⟨hlen, hne, hs⟩ := drawText_spec stream 0
      exact .line hmode hne hlen hs
    · exact .octets hmode (drawBytes_corners _ _)

theorem printable_charset : Printable charset :=
  printable_append.mpr ⟨printable_append.mpr ⟨printable_append.mpr ⟨printable_py (by decide),
    printable_py (by decide)⟩, printable_py (by decide)⟩, printable_py (by decide)⟩

theorem isAscii_line {s : PyStr} (hs : ∀ c ∈ s, c ∈ charset) : IsAscii (s ++ py "\n") := by
  intro c hc
  rcases List.mem_append.mp hc with hc | hc
  · exact printable_charset.isAscii c (hs c hc)
  · rw [List.mem_singleton.mp hc]
    decide

/-- What is drawn keeps the limits of a nominated case. -/
theorem InSpace.limits {seed : PyStr} {i : List PyStr × Bytes} (h : InSpace seed i) :
    i.1.length ≤ maxArgs ∧ (∀ a ∈ i.1, a.length ≤ maxArg ∧ (0 : CodePoint) ∉ a) ∧
      i.2.length ≤ maxStdin := by
  have hmax : maxArg = 256 ∧ maxStdin = 4096 := ⟨rfl, rfl⟩
  have hnone : ∀ a ∈ ([] : List PyStr), a.length ≤ maxArg ∧ (0 : CodePoint) ∉ a :=
    fun a ha => absurd ha List.not_mem_nil
  cases h with
  | @word s hmode hne hlen hs =>
      refine ⟨(by decide : 1 ≤ maxArgs), ?_, Nat.zero_le _⟩
      intro a ha
      obtain rfl := List.mem_singleton.mp ha
      refine ⟨by omega, fun h0 => ?_⟩
      exact absurd (printable_charset 0 (hs 0 h0)).1 (by decide)
  | @line s hmode hne hlen hs =>
      refine ⟨Nat.zero_le _, hnone, ?_⟩
      have hend : (py "\n").length = 1 := rfl
      rw [encode_ascii (isAscii_line hs), List.length_map, List.length_append]
      omega
  | @octets b hmode hb =>
      have hle : b.length ≤ maxStdin := hb.length_le.trans (by omega)
      exact ⟨Nat.zero_le _, hnone, hle⟩
  | @packet p hseed hlen hp =>
      refine ⟨Nat.zero_le _, hnone, ?_⟩
      rw [List.length_map]
      omega

/-- What is drawn as text is UTF-8. -/
theorem InSpace.readable {seed : PyStr} {i : List PyStr × Bytes} (h : InSpace seed i)
    (hmode : inputMode seed ≠ .stdinBytes) : (decodeUtf8 .strict i.2).isSome = true := by
  cases h with
  | word => rfl
  | @line s hline hne hlen hs =>
      show (decodeUtf8 .strict (encode (s ++ py "\n"))).isSome = true
      rw [decodeUtf8_ascii .strict (isAscii_line hs)]
      rfl
  | octets hbytes hb => exact absurd hbytes hmode
  | packet hseed hlen hp =>
      rw [hseed] at hmode
      exact absurd rfl hmode

/-! ### The hidden suite -/

section Hidden

variable {F : Type} [Runtime F]

/-- A hidden trace is that of a draw. -/
theorem exists_draw {guest : Guest} {binary : PyStr} {draws : ℕ → List PyStr × Bytes} {k : ℕ}
    {recorded : List Trace} {t : Trace}
    (h : t ∈ hiddenSuite F guest binary draws k recorded) :
    ∃ i, t.input = ((draws i).1, hex (draws i).2) := by
  rw [hiddenSuite_take] at h
  obtain ⟨i, -, hi⟩ := List.mem_filterMap.mp (List.mem_of_mem_take h)
  rw [usable] at hi
  split_ifs at hi
  exact ⟨i, (recordStable_spec (Option.filter_eq_some_iff.mp hi).1).2⟩

/-- A suite is not empty if the first draw is usable. -/
theorem hiddenSuite_ne_nil {guest : Guest} {binary : PyStr} {draws : ℕ → List PyStr × Bytes} {k : ℕ}
    {recorded : List Trace} {t : Trace} (h : usable F guest binary draws k recorded 0 = some t) :
    hiddenSuite F guest binary draws k recorded ≠ [] := by
  have hrange : List.range (10 * hiddenN) = 0 :: (List.range (10 * hiddenN - 1)).map Nat.succ :=
    List.range_succ_eq_map
  rw [hiddenSuite_take, hrange, List.filterMap_cons_some h, hiddenN, List.take_succ_cons]
  exact List.cons_ne_nil _ _

/-- **The hidden suite stays in the input space.**  Whatever the random numbers, every hidden
input is one that the seed's stream draws, could have been nominated, and could have been probed if
the seed takes text. -/
theorem hidden_in_space {ctx : ReplayContext} {seed : PyStr} {streams : ℕ → Stream}
    (hdraws : ctx.draws = hiddenInputStream seed streams) {r : Replay}
    (h : prepare F ctx = .ok r) :
    ∀ t ∈ r.hidden, ∃ b, t.input = (t.argv, hex b) ∧ InSpace seed (t.argv, b) ∧
      parseCase (nominate t.argv b : Json F) = .ok t.input ∧
      (inputMode seed ≠ .stdinBytes → ∃ (arguments : Json F) (p : Probe),
        parseProbe arguments = .ok p ∧ p.argv = t.argv ∧ encode p.stdin = b) := by
  obtain ⟨-, -, -, hhidden⟩ := prepare_cases h
  intro t ht
  rw [hhidden, hdraws] at ht
  obtain ⟨i, hi⟩ := exists_draw ht
  have hspace := hiddenInput_space seed (streams i)
  obtain ⟨hargv, hhex⟩ := Prod.mk.inj hi
  have hargv : (hiddenInput seed (streams i)).1 = t.argv := hargv.symm
  refine ⟨(hiddenInput seed (streams i)).2, ?_, ?_, ?_, ?_⟩
  · rw [hi, ← hargv]
    rfl
  · rw [← hargv]
    exact hspace
  · rw [hi, ← hargv]
    exact parseCase_nominate.mpr hspace.limits
  · intro hmode
    obtain ⟨hargs, harg, hlen⟩ := hspace.limits
    rw [← hargv]
    exact exists_probe hargs harg hlen (hspace.readable hmode)

end Hidden

/-- The probed candidate, with the hidden inputs of a seed that takes words. -/
def wordContext : ReplayContext :=
  { probedContext with draws := hiddenInputStream (py "rot13") fun i k => i + k }

theorem hidden_in_space_words : ∃ r, prepare ZeroFloat wordContext = .ok r ∧ r.hidden ≠ [] ∧
    ∀ t ∈ r.hidden, ∃ b, t.input = (t.argv, hex b) ∧ InSpace (py "rot13") (t.argv, b) ∧
      parseCase (nominate t.argv b : Json ZeroFloat) = .ok t.input ∧
      (inputMode (py "rot13") ≠ .stdinBytes → ∃ (arguments : Json ZeroFloat) (p : Probe),
        parseProbe arguments = .ok p ∧ p.argv = t.argv ∧ encode p.stdin = b) := by
  have hlen : [probeA].length ≤ maxCases := by decide
  have hread := parseCases_nominations (F := ZeroFloat) plain_blank hlen requested_probeA
  have hsteady : Steady ZeroFloat wordContext.guest := steady_echo
  have hsource : wordContext.candidate.lookup (py "model.c") = some (encode []) := rfl
  obtain ⟨r, hr, -, hrecorded⟩ := prepare_steady hsteady rfl
    (fun _ h => absurd h List.not_mem_nil) hsource (by decide) rfl hread
  refine ⟨r, hr, ?_, hidden_in_space rfl hr⟩
  -- the first word is new: the recorded case has no arguments
  have hknown : r.recorded.map Trace.input = [probeA.input] := by
    rw [hrecorded]
    decide
  have hnew : NewDraw wordContext.draws r.recorded 0 := by
    refine ⟨?_, fun j hj => absurd hj (Nat.not_lt_zero j)⟩
    rw [hknown]
    decide
  obtain ⟨-, -, -, hhidden⟩ := prepare_cases hr
  rw [hhidden]
  apply hiddenSuite_ne_nil
  rw [usable, if_pos hnew, recordStable_steady hsteady]
  rfl

end ReSchema
