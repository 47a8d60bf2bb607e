/-
ReSchema/TextSeeds.lean

The seeds that work on text (`corpus/seeds/rot13.c`, `check.c`, `filewrite.c`).

`rot13` rotates a word in place, so its loop reads the bytes it goes on to write;
`check` hashes a line of the standard input; `filewrite` writes a file beside
what it prints.  Each is followed exactly: where it is defined and what it leaves
in memory, which bytes of the input it looks at, and what it prints.

A `char` is signed and a `size_t` has 64 bits.  The loop variable of `filewrite`
stays under the size of its buffer, so that it is an integer here.
-/
import ReSchema.C.Store
import ReSchema.Pkfmt

namespace ReSchema

open C Py

/-! ### `rot13` -/

/-- The bytes of a literal. -/
def literal (s : PyStr) : List U8 := s.map fun c => BitVec.ofNat 8 c.val

/-- `pw_hash(s)`. -/
def pwHash (fuel : ℕ) (mem : Memory) : Exec U32 :=
  forString (fun _ => mem) (fun _ c h => .done (h * 33 + c.setWidth 32)) fuel 0 5381

/-- `check_pw(s)`. -/
def checkPw (fuel : ℕ) (mem : Memory) : Exec ℤ := do
  let h ← pwHash fuel mem
  pure (if h = 0x1F33E35F then 1 else 0)

/-- What `fgets` takes from a stream when there is room for `room` bytes and a NUL. -/
def fgets : ℕ → List U8 → List U8
  | 0, _ => []
  | _, [] => []
  | room + 1, b :: stream => if b = 10 then [b] else b :: fgets room stream

/-- `strcspn(s, "\n")`. -/
def strcspn (fuel : ℕ) (mem : Memory) : Exec ℤ :=
  whileLoop (fun _ => true)
    (fun i => do
      let c ← load mem i
      if c = 0 ∨ c = 10 then pure (.inr i) else pure (.inl (i + 1)))
    fuel 0 >>= fun
    | .inl i => .done i
    | .inr i => .done i

/-- `main` of `check.c`, on the bytes of the standard input. -/
def checkMain (fuel : ℕ) (stdin : List U8) : Exec Printed :=
  if stdin = [] then pure ⟨[], 2⟩
  else do
    -- what is behind the NUL in the buffer has no value
    let mem := Memory.ofBytes (fgets 63 stdin ++ [0])
    let i ← strcspn fuel mem
    let mem ← write mem i 0
    let ok ← checkPw fuel mem
    if ok ≠ 0 then pure ⟨py "OK\n", 0⟩ else pure ⟨py "NOPE\n", 1⟩

/-! ### `filewrite` -/

/-- `xform_byte(b, i)`. -/
def xformByte (b i : ℤ) : ℤ :=
  (BitVec.ofInt 8 b ^^^ (BitVec.ofInt 32 i * 31 + 7).setWidth 8 : U8).toNat

/-- The loop variables of `main`. -/
structure XformState where
  i : ℤ
  buf : Memory
  h : U32

/-- One round of the loop in `main`. -/
def xformRound (s : XformState) : Exec (XformState ⊕ Empty) := do
  let b ← load s.buf s.i
  let c : U8 := BitVec.ofInt 8 (xformByte b.toNat s.i)
  let buf ← write s.buf s.i c
  pure (.inl ⟨s.i + 1, buf, s.h * 33 + c.setWidth 32⟩)

/-- The `n` bytes from `p` on, for `fwrite`. -/
def readBytes (mem : Memory) : ℕ → ℤ → Exec (List U8)
  | 0, _ => pure []
  | n + 1, p => do
      let b ← load mem p
      let rest ← readBytes mem n (p + 1)
      pure (b :: rest)

/-- What a program leaves in `out.bin`, if it has written the file, and what it prints. -/
structure Wrote where
  file : Option (List U8)
  printed : Printed
  deriving DecidableEq

/-- `main` of `filewrite.c`, on the bytes of the standard input; `opens` says whether `fopen`
succeeds. -/
def filewriteMain (opens : Bool) (fuel : ℕ) (stdin : List U8) : Exec Wrote := do
  let read := stdin.take 4096
  let n := read.length
  let r ← whileLoop (fun s : XformState => s.i < n) xformRound fuel ⟨0, Memory.ofBytes read, 5381⟩
  match r with
  | .inl s =>
      if opens then do
        let file ← readBytes s.buf n 0
        pure ⟨some file, ⟨natText n ++ py " bytes -> out.bin djb2=" ++ hex8 s.h ++ py "\n", 0⟩⟩
      else pure ⟨none, ⟨py "open failed\n", 2⟩⟩

/-! ### Rotating a word -/

/-- The hash of both programs. -/
def djb2 (s : List U8) : U32 := s.foldl (fun h c => h * 33 + c.setWidth 32) 5381

/-- The bytes of the input that `check` looks at. -/
def checkWord (stdin : List U8) : List U8 :=
  (stdin.take 63).takeWhile fun b => b ≠ 0 ∧ b ≠ 10

theorem checkPw_of_string {mem : Memory} {s : List U8} (hs : StringAt mem 0 s) {fuel : ℕ}
    (hfuel : s.length < fuel) :
    checkPw fuel mem = .done (if djb2 s = 0x1F33E35F then 1 else 0) := by
  rw [checkPw, pwHash, forString_foldl hs (fun h c => h * 33 + c.setWidth 32) hfuel]
  rfl

/-- The line has the word, and then a newline or a NUL. -/
theorem fgets_word (room : ℕ) (stdin : List U8) : ∃ c rest, (c = 0 ∨ c = 10) ∧
    fgets room stdin ++ [0] =
      ((stdin.take room).takeWhile fun b => b ≠ 0 ∧ b ≠ 10) ++ c :: rest := by
  induction room generalizing stdin with
  | zero => exact ⟨0, [], .inl rfl, rfl⟩
  | succ room ih =>
      rcases stdin with - | ⟨b, stdin⟩
      · exact ⟨0, [], .inl rfl, rfl⟩
      · rw [fgets, List.take_succ_cons, List.takeWhile_cons]
        by_cases hend : b = 0 ∨ b = 10
        · have hword : decide (b ≠ 0 ∧ b ≠ 10) = false :=
            decide_eq_false fun h => hend.elim h.1 h.2
          rw [hword]
          rcases hend with rfl | rfl
          · exact ⟨0, _, .inl rfl, rfl⟩
          · exact ⟨10, _, .inr rfl, rfl⟩
        · obtain ⟨c, rest, hc, hline⟩ := ih stdin
          have hword : decide (b ≠ 0 ∧ b ≠ 10) = true := decide_eq_true (not_or.mp hend)
          rw [if_neg (not_or.mp hend).2, hword, if_pos rfl, List.cons_append, hline]
          exact ⟨c, rest, hc, rfl⟩

theorem strcspn_of_holds {mem : Memory} {w rest : List U8} {c : U8}
    (hmem : mem.Holds (w ++ c :: rest)) (hc : c = 0 ∨ c = 10) (hw : ∀ b ∈ w, b ≠ 0 ∧ b ≠ 10)
    {fuel : ℕ} (hfuel : w.length < fuel) : strcspn fuel mem = .done w.length := by
  have hloop : Ends (whileLoop (fun _ => true) (fun i => do
      let c ← load mem i
      if c = 0 ∨ c = 10 then pure (.inr i) else pure (.inl (i + 1))) fuel 0)
      fun r : ℤ ⊕ ℤ => r = .inr (w.length : ℤ) := by
    refine whileLoop_ends (fun i : ℤ => 0 ≤ i ∧ i ≤ w.length)
      (fun i : ℤ => (w.length - i).toNat) ?_ ?_
      ⟨le_rfl, by omega⟩ (by omega)
    · rintro i ⟨hi, hle⟩ -
      obtain ⟨k, rfl⟩ := Int.eq_ofNat_of_zero_le hi
      rcases eq_or_lt_of_le (Int.ofNat_le.mp hle) with rfl | hlt
      · -- the end of the word
        have hload := load_of_some (hmem w.length c (by simp))
        rw [hload, done_bind, if_pos hc]
        exact .done rfl
      · have hget : (w ++ c :: rest)[k]? = some w[k] := by
          rw [List.getElem?_append_left hlt, List.getElem?_eq_getElem hlt]
        have hload := load_of_some (hmem k _ hget)
        rw [hload, done_bind, if_neg (not_or.mpr (hw _ (List.getElem_mem hlt)))]
        exact .done ⟨by omega, by omega⟩
    · rintro i - ⟨⟩
  obtain ⟨r, hr, rfl⟩ := hloop
  rw [strcspn, hr]
  rfl

/-- The NUL that is put behind the word. -/
theorem holds_update {w rest : List U8} {c : U8} (b : U8) :
    Memory.Holds (Function.update (Memory.ofBytes (w ++ c :: rest)) w.length (some b))
      (w ++ b :: rest) := by
  intro i d hd
  rcases eq_or_ne i w.length with rfl | hne
  · rw [Function.update_self, ← hd]
    simp
  · rw [Function.update_of_ne (mt Nat.cast_inj.mp hne)]
    apply Memory.holds_ofBytes
    rw [← hd]
    rcases lt_or_gt_of_ne hne with hlt | hgt
    · rw [List.getElem?_append_left hlt, List.getElem?_append_left hlt]
    · obtain ⟨k, hk⟩ := Nat.exists_eq_add_of_lt hgt
      rw [List.getElem?_append_right hgt.le, List.getElem?_append_right hgt.le,
        show i - w.length = k + 1 by omega]
      rfl

/-- **What the password check looks at.**  The answer to an input is that to the hash of its
word, and an input is turned away only if there is none of it. -/
theorem checkMain_exact (stdin : List U8) {fuel : ℕ} (hfuel : 63 < fuel) : checkMain fuel stdin =
    .done (if stdin = [] then ⟨[], 2⟩
      else if djb2 (checkWord stdin) = 0x1F33E35F then ⟨py "OK\n", 0⟩ else ⟨py "NOPE\n", 1⟩) := by
  rw [checkMain]
  by_cases hempty : stdin = []
  · rw [if_pos hempty, if_pos hempty]
    rfl
  obtain ⟨c, rest, hc, hline⟩ : ∃ c rest, (c = 0 ∨ c = 10) ∧
      fgets 63 stdin ++ [0] = checkWord stdin ++ c :: rest := fgets_word 63 stdin
  have hword : ∀ b ∈ checkWord stdin, b ≠ 0 ∧ b ≠ 10 := by
    intro b hb
    rw [checkWord] at hb
    have hsat := List.mem_takeWhile_imp hb
    exact of_decide_eq_true hsat
  have hlen : (checkWord stdin).length < fuel := by
    have htake : (checkWord stdin).length ≤ (stdin.take 63).length :=
      (List.takeWhile_sublist _).length_le
    have hle := List.length_take_le 63 stdin
    omega
  have hmem := Memory.holds_ofBytes (checkWord stdin ++ c :: rest)
  have hcell : Memory.ofBytes (checkWord stdin ++ c :: rest) (checkWord stdin).length = some c :=
    hmem _ _ (by simp)
  -- the NUL that `main` writes over the line end makes the word a string
  have hstring : StringAt (Function.update (Memory.ofBytes (checkWord stdin ++ c :: rest))
      (checkWord stdin).length (some 0)) 0 (checkWord stdin) :=
    (holds_update 0).string fun h0 => (hword 0 h0).1 rfl
  rw [if_neg hempty, if_neg hempty]
  dsimp only
  rw [hline]
  rw [strcspn_of_holds hmem hc hword hlen, done_bind, write_of_some hcell, done_bind,
    checkPw_of_string hstring hlen, done_bind]
  by_cases hpw : djb2 (checkWord stdin) = 0x1F33E35F
  · simp only [hpw, if_true]
    rfl
  · simp only [hpw, if_false]
    rfl

theorem checkMain_guess : checkMain 64 [112, 119, 10] = .done (if [112, 119, 10] = ([] : List U8)
    then ⟨[], 2⟩ else if djb2 (checkWord [112, 119, 10]) = 0x1F33E35F then ⟨py "OK\n", 0⟩
      else ⟨py "NOPE\n", 1⟩) :=
  checkMain_exact [112, 119, 10] (by decide)

/-! ### The file -/

/-- The byte at `i`, transformed. -/
def xform (i : ℤ) (b : U8) : U8 := BitVec.ofInt 8 (xformByte b.toNat i)

/-- The bytes of an input, transformed. -/
def xformed (s : List U8) : List U8 := s.mapIdx fun i b => xform i b

theorem xform_eq (i : ℤ) (b : U8) :
    xform i b = b ^^^ (BitVec.ofInt 32 i * 31 + 7).setWidth 8 := by
  rw [xform, xformByte, BitVec.ofInt_natCast, BitVec.ofInt_natCast, BitVec.ofNat_toNat,
    BitVec.ofNat_toNat, BitVec.setWidth_eq, BitVec.setWidth_eq]

theorem xform_xform (i : ℤ) (b : U8) : xform i (xform i b) = b := by
  rw [xform_eq, xform_eq, BitVec.xor_assoc, BitVec.xor_self, BitVec.xor_zero]

theorem xformed_xformed (s : List U8) : xformed (xformed s) = s := by
  apply List.ext_getElem
  · simp [xformed]
  · intro i _ _
    simp [xformed, xform_xform]

theorem length_xformed (s : List U8) : (xformed s).length = s.length := List.length_mapIdx

theorem getElem?_xformed {s : List U8} {i : ℕ} (hi : i < s.length) :
    (xformed s)[i]? = some (xform i s[i]) := by
  rw [xformed, List.getElem?_mapIdx, List.getElem?_eq_getElem hi]
  rfl

theorem holds_xformed (s : List U8) :
    Memory.Holds (mapRange xform 0 s.length (Memory.ofBytes s)) (xformed s) := by
  intro i b hb
  have hlt : i < s.length := by
    have hlen := (List.getElem?_eq_some_iff.mp hb).1
    rwa [length_xformed] at hlen
  have hcell := Memory.holds_ofBytes s i _ (List.getElem?_eq_getElem hlt)
  rw [mapRange, if_pos (by omega), hcell, ← hb, getElem?_xformed hlt]
  rfl

theorem readBytes_of_holds {mem : Memory} {before s : List U8} (h : mem.Holds (before ++ s)) :
    readBytes mem s.length before.length = .done s := by
  induction s generalizing before with
  | nil => rfl
  | cons b s ih =>
      have hload := load_of_some (h before.length b (by simp))
      have hnext : mem.Holds (before ++ [b] ++ s) := by rwa [List.append_assoc]
      have hlen : ((before ++ [b]).length : ℤ) = before.length + 1 := by simp
      have hrest := ih hnext
      rw [hlen] at hrest
      rw [List.length_cons, readBytes, hload, done_bind, hrest]
      rfl

theorem readBytes_all {mem : Memory} {s : List U8} (h : mem.Holds s) :
    readBytes mem s.length 0 = .done s := by
  have hstart : mem.Holds ([] ++ s) := h
  exact readBytes_of_holds hstart

/-- The loop of `main`, on the bytes that were read. -/
theorem xformLoop_ends (s : List U8) {fuel : ℕ} (hfuel : s.length < fuel) :
    Ends (whileLoop (fun t : XformState => t.i < s.length) xformRound fuel
      ⟨0, Memory.ofBytes s, 5381⟩) fun r => r = .inl ⟨s.length,
        mapRange xform 0 s.length (Memory.ofBytes s), djb2 (xformed s)⟩ := by
  refine whileLoop_ends (fun t : XformState => 0 ≤ t.i ∧ t.i ≤ s.length ∧
      t.buf = mapRange xform 0 t.i (Memory.ofBytes s) ∧ t.h = djb2 ((xformed s).take t.i.toNat))
    (fun t : XformState => (s.length - t.i).toNat) ?_ ?_
    ⟨le_rfl, by dsimp only; omega, (mapRange_empty _ le_rfl _).symm, rfl⟩ ?_
  · rintro ⟨i, buf, h⟩ ⟨hi, -, hbuf, hh⟩ htest
    have hlt : i < s.length := of_decide_eq_true htest
    dsimp only at hi hbuf hh
    obtain ⟨k, rfl⟩ := Int.eq_ofNat_of_zero_le hi
    have hk : k < s.length := Int.ofNat_lt.mp hlt
    have hcell := Memory.holds_ofBytes s k _ (List.getElem?_eq_getElem hk)
    have hload : buf k = some s[k] := by
      rw [hbuf, mapRange, if_neg (by omega), hcell]
    -- the hash takes in the byte that was written
    have htake : (xformed s).take (k + 1) = (xformed s).take k ++ [xform k s[k]] := by
      rw [List.take_add_one, getElem?_xformed hk]
      rfl
    rw [xformRound]
    dsimp only
    rw [load_of_some hload, done_bind, write_of_some hload, done_bind]
    refine .done ⟨⟨by dsimp only; omega, by dsimp only; omega, ?_, ?_⟩, by dsimp only; omega⟩
    · rw [hbuf]
      exact update_mapRange xform hi hcell
    · have hnext : ((k : ℤ) + 1).toNat = k + 1 := by omega
      rw [hnext, htake, djb2, List.foldl_append, hh]
      rfl
  · rintro ⟨i, buf, h⟩ ⟨hi, hle, hbuf, hh⟩ htest
    have hge : ¬ i < s.length := of_decide_eq_false htest
    dsimp only at hi hle hbuf hh
    obtain rfl : i = s.length := by omega
    have hlen : (xformed s).length ≤ ((s.length : ℤ)).toNat := by
      rw [length_xformed]
      omega
    rw [hbuf, hh, List.take_of_length_le hlen]
  · simpa using hfuel

theorem filewriteMain_eq (opens : Bool) (stdin : List U8) {fuel : ℕ} (hfuel : 4096 < fuel) :
    filewriteMain opens fuel stdin =
      .done (if opens then ⟨some (xformed (stdin.take 4096)), ⟨natText (stdin.take 4096).length ++
          py " bytes -> out.bin djb2=" ++ hex8 (djb2 (xformed (stdin.take 4096))) ++ py "\n", 0⟩⟩
        else ⟨none, ⟨py "open failed\n", 2⟩⟩) := by
  have hle : (stdin.take 4096).length ≤ 4096 := List.length_take_le _ _
  obtain ⟨r, hr, rfl⟩ := xformLoop_ends (stdin.take 4096) (hle.trans_lt hfuel)
  have hfile : readBytes (mapRange xform 0 (stdin.take 4096).length
      (Memory.ofBytes (stdin.take 4096))) (stdin.take 4096).length 0 =
        .done (xformed (stdin.take 4096)) := by
    have hread := readBytes_all (holds_xformed (stdin.take 4096))
    rwa [length_xformed] at hread
  rw [filewriteMain]
  rw [hr, done_bind]
  dsimp only
  rcases opens with - | -
  · rfl
  · rw [if_pos rfl, hfile]
    rfl

/-- The byte that is mixed in at `i`. -/
theorem xform_natCast (i : ℕ) (b : U8) : xform i b = b ^^^ BitVec.ofNat 8 (31 * i + 7) := by
  rw [xform_eq]
  congr 1
  apply BitVec.eq_of_toNat_eq
  have hfactor : (31 : U32).toNat = 31 := rfl
  have hsummand : (7 : U32).toNat = 7 := rfl
  simp only [BitVec.ofInt_natCast, BitVec.toNat_setWidth, BitVec.toNat_add, BitVec.toNat_mul,
    BitVec.toNat_ofNat, hfactor, hsummand]
  omega

/-- **The file can be turned back.**  For every input a file is written that is as long as what
was read of it, each byte of that mixed with one that its place decides; the program prints the
length of that file and its hash; and if it is given the file as its input, it writes what it had
read. -/
theorem filewriteMain_undo (stdin : List U8) {fuel : ℕ} (hfuel : 4096 < fuel) :
    ∃ file : List U8, file.length = min 4096 stdin.length ∧
      (∀ i b, (stdin.take 4096)[i]? = some b →
        file[i]? = some (b ^^^ BitVec.ofNat 8 (31 * i + 7))) ∧
      (∀ opens, filewriteMain opens fuel stdin = .done (if opens then
          ⟨some file, ⟨natText file.length ++ py " bytes -> out.bin djb2=" ++ hex8 (djb2 file) ++
            py "\n", 0⟩⟩
        else ⟨none, ⟨py "open failed\n", 2⟩⟩)) ∧
      ∃ r, filewriteMain true fuel file = .done r ∧ r.file = some (stdin.take 4096) ∧
        r.printed.code = 0 := by
  have hlen := length_xformed (stdin.take 4096)
  have hback : (xformed (stdin.take 4096)).take 4096 = xformed (stdin.take 4096) :=
    List.take_of_length_le (hlen.trans_le (List.length_take_le _ _))
  refine ⟨xformed (stdin.take 4096), hlen.trans List.length_take, fun i b hb => ?_,
    fun opens => ?_, ?_⟩
  · obtain ⟨hi, rfl⟩ := List.getElem?_eq_some_iff.mp hb
    rw [getElem?_xformed hi, xform_natCast]
  · rw [filewriteMain_eq opens stdin hfuel, hlen]
  · refine ⟨_, filewriteMain_eq true _ hfuel, ?_, rfl⟩
    rw [if_pos rfl, hback, xformed_xformed]

theorem filewriteMain_greeting : ∃ file : List U8, file.length = min 4096 2 ∧
    (∀ i b, ([104, 105].take 4096)[i]? = some b →
      file[i]? = some (b ^^^ BitVec.ofNat 8 (31 * i + 7))) ∧
    (∀ opens, filewriteMain opens 4097 [104, 105] = .done (if opens then
        ⟨some file, ⟨natText file.length ++ py " bytes -> out.bin djb2=" ++ hex8 (djb2 file) ++
          py "\n", 0⟩⟩
      else ⟨none, ⟨py "open failed\n", 2⟩⟩)) ∧
    ∃ r, filewriteMain true 4097 file = .done r ∧ r.file = some ([104, 105].take 4096) ∧
      r.printed.code = 0 :=
  filewriteMain_undo [104, 105] (by decide)

end ReSchema
