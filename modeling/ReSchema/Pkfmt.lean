/-
ReSchema/Pkfmt.lean

The packed-record seed (`corpus/seeds/pkfmt.c`).

A packet is a magic, a version and a count in four bytes, and then as many
records: a tag, the length of the payload in two bytes, and the payload.
`pkExtract` walks the records and folds the payloads of one tag; the offset is
signed, the lengths are unsigned, and both come from the packet.

`Records` says what a well-formed packet is, without a walk, and `ExtractSpec`
what the walk is to give.
-/
import ReSchema.C.Exec
import ReSchema.Py.Codec

namespace ReSchema

open C Py

/-! ### The program -/

/-- `PK_MAX_PACKET`. -/
def pkMaxPacket : ℤ := 4096

/-- `PK_MAX_LEN`. -/
def pkMaxLen : U32 := 1024

/-- `PK_TAG_SUM`. -/
def pkTagSum : ℤ := 0x20

/-- `PK_TAG_XOR`. -/
def pkTagXor : ℤ := 0x30

/-- `pk_version_ok(v)`. -/
def pkVersionOk (v : ℤ) : Exec ℤ :=
  if v < 2 then .done 0 else if 4 < v then .done 0 else signed (v * 16)

/-- What a helper returns, and what it leaves in `pk_errno`. -/
structure Extract where
  ret : U32
  errno : ℤ
  deriving DecidableEq

/-- The loop over the payload at `off`. -/
def pkPayload (fuel : ℕ) (mem : Memory) (off : ℤ) (len acc : U32) : Exec U32 :=
  whileLoop (ρ := Empty) (fun s : U32 × U32 => s.1 < len)
    (fun s => do
      -- `off + i` is unsigned
      let b ← load mem (BitVec.ofInt 32 off + s.1).toNat
      pure (.inl (s.1 + 1, (s.2 ^^^ b.setWidth 32) + len)))
    fuel (0, acc) >>= fun
    | .inl s => .done s.2

/-- The loop variables of `pk_extract`. -/
structure ExtractState where
  record : U32
  off : ℤ
  acc : U32

/-- One round of the loop over the records. -/
def pkRecord (fuel : ℕ) (mem : Memory) (n tag : ℤ) (s : ExtractState) :
    Exec (ExtractState ⊕ Extract) := do
  let left ← signed (n - s.off)
  if left < 3 then pure (.inr ⟨0, 2⟩)
  else do
    let t ← load mem s.off
    let lo ← load mem (← signed (s.off + 1))
    let hi ← load mem (← signed (s.off + 2))
    let len : U32 := lo.setWidth 32 ||| hi.setWidth 32 <<< 8
    let off ← signed (s.off + 3)
    if pkMaxLen < len then pure (.inr ⟨0, 2⟩)
    else do
      let room ← signed (n - off)
      if BitVec.ofInt 32 room < len then pure (.inr ⟨0, 2⟩)
      else do
        let acc ← (if t.setWidth 32 = BitVec.ofInt 32 tag then pkPayload fuel mem off len s.acc
          else .done s.acc)
        let off ← signed (off + len.toInt)
        pure (.inl ⟨s.record + 1, off, acc⟩)

/-- `pk_extract(buf, n, tag)`. -/
def pkExtract (fuel : ℕ) (mem : Memory) (n tag : ℤ) : Exec Extract :=
  if tag ≠ pkTagSum ∧ tag ≠ pkTagXor then .done ⟨0, 4⟩
  else if n < 4 ∨ pkMaxPacket < n then .done ⟨0, 1⟩
  else do
    let count ← load mem 3
    let start : U32 := if tag = pkTagSum then 0 else 0xA0A0A0A0
    let r ← whileLoop (fun s : ExtractState => s.record < count.setWidth 32)
      (pkRecord fuel mem n tag) fuel ⟨0, 4, start⟩
    match r with
    | .inl s => if s.off ≠ n then pure ⟨0, 2⟩ else pure ⟨s.acc, 0⟩
    | .inr v => pure v

/-- `pk_checksum(buf, n)`. -/
def pkChecksum (fuel : ℕ) (mem : Memory) (n : ℤ) : Exec Extract :=
  if n < 4 ∨ pkMaxPacket < n then .done ⟨0, 1⟩
  else
    whileLoop (ρ := Empty) (fun s : ℤ × U32 => s.1 < n)
      (fun s => do
        let b ← load mem s.1
        let i ← signed (s.1 + 1)
        pure (.inl (i, (s.2 ^^^ b.setWidth 32) * 16777619)))
      fuel (4, 2166136261) >>= fun
      | .inl s => .done ⟨s.2, 0⟩

/-- What `main` prints and its exit code. -/
structure Printed where
  text : PyStr
  code : ℤ
  deriving DecidableEq

/-- `%08lx`. -/
def hex8 (x : U32) : PyStr :=
  let digits := (Nat.toDigits 16 x.toNat).map ch
  List.replicate (8 - digits.length) (ch '0') ++ digits

/-- The line that `main` prints for a packet it has read. -/
def pkSummary (ok : ℤ) (a b h : U32) : PyStr :=
  py "v=" ++ intText ok ++ py " sum=" ++ natText a.toNat ++ py " xor-lit=" ++
    natText (b ^^^ 0xA0A0A0A0).toNat ++ py " fnv=" ++ hex8 h ++ py "\n"

/-- `main`, on the bytes of the standard input. -/
def pkMain (fuel : ℕ) (stdin : List U8) : Exec Printed := do
  -- the buffer has room for one byte more than a packet
  let read := stdin.take (pkMaxPacket.toNat + 1)
  let mem := Memory.ofBytes read
  let n : ℤ := read.length
  if n < 4 then pure ⟨py "bad magic\n", 1⟩
  else do
    let m0 ← load mem 0
    let m1 ← load mem 1
    let magic : U32 := m0.setWidth 32 ||| m1.setWidth 32 <<< 8
    if magic ≠ 0x5AB1 then pure ⟨py "bad magic\n", 1⟩
    else do
      let v ← load mem 2
      let ok ← pkVersionOk v.toNat
      if ok = 0 then pure ⟨py "bad version\n", 1⟩
      else if pkMaxPacket < n then pure ⟨py "truncate\n", 2⟩
      else do
        let a ← pkExtract fuel mem n pkTagSum
        let b ← pkExtract fuel mem n pkTagXor
        if a.errno ≠ 0 ∨ b.errno ≠ 0 then pure ⟨py "truncate\n", 2⟩
        else do
          let h ← pkChecksum fuel mem n
          pure ⟨pkSummary ok a.ret b.ret h.ret, 0⟩

/-! ### Well-formed packets -/

/-- A record. -/
structure Rec where
  tag : U8
  payload : List U8

/-- The bytes of a record whose header claims `len` bytes of payload. -/
def Rec.bytes (r : Rec) (len : ℕ) : List U8 :=
  r.tag :: BitVec.ofNat 8 len :: BitVec.ofNat 8 (len / 256) :: r.payload

/-- The bytes of a record. -/
def Rec.encode (r : Rec) : List U8 := r.bytes r.payload.length

/-- The buffer has the records behind the header: as many as it counts, of bounded length, and
nothing after them. -/
structure Records (buf : List U8) (recs : List Rec) : Prop where
  count : ∃ c, buf[3]? = some c ∧ recs.length = c.toNat
  short : ∀ r ∈ recs, r.payload.length ≤ 1024
  bytes : buf.drop 4 = recs.flatMap Rec.encode

/-- What the records with the tag add to the accumulator. -/
def Rec.fold (tag : ℤ) (acc : U32) (r : Rec) : U32 :=
  if (r.tag.toNat : ℤ) = tag then
    r.payload.foldl
      (fun acc b => (acc ^^^ b.setWidth 32) + BitVec.ofNat 32 r.payload.length) acc
  else acc

/-- The accumulator over all records. -/
def extractRecords (tag : ℤ) (recs : List Rec) : U32 :=
  recs.foldl (Rec.fold tag) (if tag = pkTagSum then 0 else 0xA0A0A0A0)

/-- What `pk_extract` is to give: the tag is checked first, then the size, then the shape. -/
structure ExtractSpec (buf : List U8) (n tag : ℤ) (r : Extract) : Prop where
  accepts : r.errno = 0 ↔ tag ∈ [pkTagSum, pkTagXor] ∧ 4 ≤ n ∧ n ≤ 4096 ∧ ∃ recs, Records buf recs
  value : r.errno = 0 → ∀ recs, Records buf recs → r.ret = extractRecords tag recs
  badTag : tag ∉ [pkTagSum, pkTagXor] → r.ret = 0 ∧ r.errno = 4
  badSize : tag ∈ [pkTagSum, pkTagXor] → ¬ (4 ≤ n ∧ n ≤ 4096) → r.ret = 0 ∧ r.errno = 1
  badShape : tag ∈ [pkTagSum, pkTagXor] → 4 ≤ n ∧ n ≤ 4096 → (¬ ∃ recs, Records buf recs) →
    r.ret = 0 ∧ r.errno = 2

end ReSchema
