/-
ReSchema/Disasm.lean

Facts about functions from their instructions (`disasm/analyze.py`).

The disassembler hands out a list of instructions, each with its operands in
order and what it does with every one of them.  `analyzeFunction` guesses from
these how many arguments a function takes and whether it returns a value.

An argument shows by its register group being read before it is written, in
the instructions before the first call.  `ReadBeforeWrite` says this of whole
instructions; the scan `directFams` goes operand by operand, and a destination
that comes first in its instruction hides the sources behind it.

Main result: `directFams_iff`, the scan finds the groups read before written
exactly when in no first touch of a group the order of operands matters.
-/
import ReSchema.Trace

namespace ReSchema

open Py

/-! ### One thing before another -/

section Before

variable {α : Type}

/-- Something with `R` stands in the list, and nothing with `W` stands before it. -/
def Before (R W : α → Prop) (l : List α) : Prop :=
  ∃ as a bs, l = as ++ a :: bs ∧ R a ∧ ∀ b ∈ as, ¬ W b

theorem not_before_nil (R W : α → Prop) : ¬ Before R W [] := by
  rintro ⟨as, a, bs, h, -⟩
  exact absurd h.symm (by simp)

theorem before_cons {R W : α → Prop} {a : α} {l : List α} :
    Before R W (a :: l) ↔ R a ∨ ¬ W a ∧ Before R W l := by
  constructor
  · rintro ⟨as, b, bs, h, hb, has⟩
    cases as with
    | nil =>
        obtain ⟨rfl, -⟩ := List.cons.inj h
        exact .inl hb
    | cons c as =>
        obtain ⟨rfl, rfl⟩ := List.cons.inj h
        obtain ⟨hc, has⟩ := List.forall_mem_cons.mp has
        exact .inr ⟨hc, as, b, bs, rfl, hb, has⟩
  · rintro (ha | ⟨ha, as, b, bs, rfl, hb, has⟩)
    · exact ⟨[], a, l, rfl, ha, by simp⟩
    · exact ⟨a :: as, b, bs, rfl, hb, List.forall_mem_cons.mpr ⟨ha, has⟩⟩

theorem before_append {R W : α → Prop} {l m : List α} :
    Before R W (l ++ m) ↔ Before R W l ∨ (∀ a ∈ l, ¬ W a) ∧ Before R W m := by
  induction l with
  | nil => simp [not_before_nil]
  | cons a l ih =>
      rw [List.cons_append, before_cons, before_cons, ih, List.forall_mem_cons]
      tauto

/-- Where nothing with `W` stands, `R` is all that matters. -/
theorem before_of_forall_not {R W : α → Prop} {l : List α} (h : ∀ a ∈ l, ¬ W a) :
    Before R W l ↔ ∃ a ∈ l, R a := by
  induction l with
  | nil => simp [not_before_nil]
  | cons a l ih =>
      obtain ⟨ha, hl⟩ := List.forall_mem_cons.mp h
      rw [before_cons, ih hl, List.exists_mem_cons_iff]
      tauto

theorem Before.exists_mem {R W : α → Prop} {l : List α} (h : Before R W l) : ∃ a ∈ l, R a := by
  obtain ⟨as, a, bs, rfl, ha, -⟩ := h
  exact ⟨a, List.mem_append_right _ List.mem_cons_self, ha⟩

end Before

/-! ### Instructions -/

/-- An operand as the disassembler describes it. -/
inductive Operand
  | reg (name : PyStr) (read write : Bool)
  | mem (base : Option PyStr) (read write : Bool)
  | imm (value : ℤ)
  deriving DecidableEq

/-- An instruction; `jump` and `ret` are its groups. -/
structure AsmInsn where
  mnemonic : PyStr
  operands : List Operand
  jump : Bool
  ret : Bool

/-- `BAREGS`: the registers of the arguments in order, each with its narrower aliases. -/
def argGroups : List (List PyStr) :=
  [[py "rdi", py "edi", py "di", py "dil"], [py "rsi", py "esi", py "si", py "sil"],
    [py "rdx", py "edx", py "dx", py "dl"], [py "rcx", py "ecx", py "cx", py "cl"],
    [py "r8", py "r8d", py "r8w", py "r8b"], [py "r9", py "r9d", py "r9w", py "r9b"]]

/-- `FAM_IDX.get(name)`. -/
def famIdx (name : PyStr) : Option ℕ := argGroups.findIdx? fun g => name ∈ g

/-- `RAX`. -/
def raxNames : List PyStr := [py "rax", py "eax", py "ax", py "al", py "ah"]

/-! ### The scan -/

/-- The groups found and the groups written so far. -/
structure Fams where
  fam : Finset ℕ
  written : Finset ℕ
  deriving DecidableEq

/-- One operand of the scan. -/
def Fams.visit (s : Fams) : Operand → Fams
  | .reg name read write =>
      match famIdx name with
      | none => s
      | some f =>
          let fam := if read ∧ ¬ write ∧ f ∉ s.written then insert f s.fam else s.fam
          ⟨fam, if write then insert f s.written else s.written⟩
  | .mem base read _ =>
      if read then
        match base.bind famIdx with
        | none => s
        | some f => if f ∉ s.written then { s with fam := insert f s.fam } else s
      else s
  | .imm _ => s

/-- The loop over the instructions. -/
def Fams.scan (s : Fams) : List AsmInsn → Fams
  | [] => s
  | ins :: ii =>
      if ins.mnemonic = py "call" then s else Fams.scan (ins.operands.foldl Fams.visit s) ii

/-- `_direct_fams(ii)`. -/
def directFams (ii : List AsmInsn) : Fams := Fams.scan ⟨∅, ∅⟩ ii

/-- `_call_targets(ii)`. -/
def callTargets (ii : List AsmInsn) : List ℤ :=
  ii.filterMap fun ins =>
    if ins.mnemonic = py "call" then
      match ins.operands.head? with
      | some (.imm target) => some target
      | _ => none
    else none

/-- `rax_writes(ins)`: for each write to the group of `rax`, whether the instruction reads
memory. -/
def raxWrites (ins : AsmInsn) : List Bool :=
  ins.operands.filterMap fun op =>
    match op with
    | .reg name _ true =>
        if name ∈ raxNames then
          some (ins.operands.any fun o => match o with
            | .mem _ read _ => read
            | _ => false)
        else none
    | _ => none

/-- The loop over the blocks: `block` has the instructions of the current one so far. -/
def blockReturns (block : List AsmInsn) : List AsmInsn → Bool
  | [] => false
  | ins :: ii =>
      if ins.jump || ins.ret then
        (ins.mnemonic = py "ret" && (block ++ [ins]).any fun i => raxWrites i ≠ []) ||
          blockReturns [] ii
      else blockReturns (block ++ [ins]) ii

/-- `_returns_hint(ii)`. -/
def returnsHint (ii : List AsmInsn) : Bool :=
  blockReturns [] ii || (ii.take 4).any fun ins => (raxWrites ins).any (!·)

/-! ### The facts -/

/-- What `analyze_function` says of one function. -/
structure Facts where
  arityGuess : ℕ
  returnsHint : Bool
  /-- Addresses and names. -/
  callees : List (PyStr × Option PyStr)
  labeled : PyStr

/-- `LABELED`. -/
def labeledText : PyStr := py "heuristic guess — declare the falsifiable param spec yourself"

/-- A function of a binary: where it is, and its instructions. -/
structure AsmFunction where
  addr : ℤ
  insns : List AsmInsn

/-- The name at an address; of several functions there the last one counts. -/
def nameAt (functions : Dict AsmFunction) (addr : ℤ) : Option PyStr :=
  (functions.reverse.find? fun f => f.2.addr = addr).map Prod.fst

/-- The arguments that a function passes through to the first one it calls. -/
def passedThrough (functions : Dict AsmFunction) (ii : List AsmInsn) : Finset ℕ :=
  match (callTargets ii).head?.bind (nameAt functions) with
  | none => ∅
  | some callee =>
      match functions.lookup callee with
      | none => ∅
      | some f => (Finset.range (directFams f.insns).fam.card).filter (· ∉ (directFams ii).written)

/-- `analyze_function(binary, functions)`, for one function. -/
def factsOf (functions : Dict AsmFunction) (ii : List AsmInsn) : Facts where
  arityGuess := ((directFams ii).fam ∪ passedThrough functions ii).card
  returnsHint := returnsHint ii
  callees := (callTargets ii).map fun t => (hexText t, nameAt functions t)
  labeled := labeledText

/-- `analyze_function(binary, functions)`. -/
def analyzeFunction (functions : Dict AsmFunction) : Dict Facts :=
  functions.map fun f => (f.1, factsOf functions f.2.insns)

/-! ### Reads and writes of a group -/

/-- The operand reads the group and does not write it. -/
def Operand.PureRead (g : ℕ) : Operand → Prop
  | .reg name read write => famIdx name = some g ∧ read ∧ ¬ write
  | .mem base read _ => base.bind famIdx = some g ∧ read
  | .imm _ => False

/-- The operand writes the group. -/
def Operand.Writes (g : ℕ) : Operand → Prop
  | .reg name _ write => famIdx name = some g ∧ write
  | _ => False

/-- The operand reads the group and writes it. -/
def Operand.ReadWrites (g : ℕ) : Operand → Prop
  | .reg name read write => famIdx name = some g ∧ read ∧ write
  | _ => False

theorem Operand.ReadWrites.writes {g : ℕ} {o : Operand} (h : o.ReadWrites g) : o.Writes g := by
  cases o with
  | reg name read write => exact ⟨h.1, h.2.2⟩
  | mem base read write => exact h
  | imm value => exact h

/-- The instruction purely reads the group. -/
def AsmInsn.PurelyReads (g : ℕ) (ins : AsmInsn) : Prop :=
  (∃ o ∈ ins.operands, o.PureRead g) ∧ ¬ ∃ o ∈ ins.operands, o.ReadWrites g

/-- The instruction writes the group. -/
def AsmInsn.Writes (g : ℕ) (ins : AsmInsn) : Prop := ∃ o ∈ ins.operands, o.Writes g

/-- The instructions before the first call. -/
def preamble (ii : List AsmInsn) : List AsmInsn :=
  ii.takeWhile fun ins => ins.mnemonic ≠ py "call"

/-- Some instruction of the preamble purely reads the group, and no earlier one writes it. -/
def ReadBeforeWrite (ii : List AsmInsn) (g : ℕ) : Prop :=
  Before (AsmInsn.PurelyReads g) (AsmInsn.Writes g) (preamble ii)

/-! ### What the scan finds -/

theorem mem_visit_fam {s : Fams} {o : Operand} {g : ℕ} :
    g ∈ (s.visit o).fam ↔ g ∈ s.fam ∨ g ∉ s.written ∧ o.PureRead g := by
  cases o with
  | reg name read write =>
      rcases h : famIdx name with - | f
      · simp [Fams.visit, Operand.PureRead, h]
      · simp only [Fams.visit, Operand.PureRead, h, Option.some.injEq]
        split_ifs with hnew
        · rw [Finset.mem_insert]
          constructor
          · rintro (rfl | hg)
            · exact .inr ⟨hnew.2.2, rfl, hnew.1, hnew.2.1⟩
            · exact .inl hg
          · rintro (hg | ⟨-, rfl, -⟩)
            · exact .inr hg
            · exact .inl rfl
        · constructor
          · exact .inl
          · rintro (hg | ⟨hg, rfl, hr, hw⟩)
            · exact hg
            · exact absurd ⟨hr, hw, hg⟩ hnew
  | mem base read write =>
      rcases h : base.bind famIdx with - | f
      · simp [Fams.visit, Operand.PureRead, h]
      · simp only [Fams.visit, Operand.PureRead, h, Option.some.injEq]
        cases read with
        | false => simp
        | true =>
            -- the base of a memory operand is read even where the operand is written
            by_cases hf : f ∈ s.written
            · simp only [if_true, hf, not_true_eq_false, if_false, and_true]
              constructor
              · exact .inl
              · rintro (hg | ⟨hg, rfl⟩)
                · exact hg
                · exact absurd hf hg
            · simp only [if_true, hf, not_false_eq_true, Finset.mem_insert, and_true]
              constructor
              · rintro (rfl | hg)
                · exact .inr ⟨hf, rfl⟩
                · exact .inl hg
              · rintro (hg | ⟨-, rfl⟩)
                · exact .inr hg
                · exact .inl rfl
  | imm value => simp [Fams.visit, Operand.PureRead]

theorem mem_visit_written {s : Fams} {o : Operand} {g : ℕ} :
    g ∈ (s.visit o).written ↔ g ∈ s.written ∨ o.Writes g := by
  cases o with
  | reg name read write =>
      rcases h : famIdx name with - | f
      · simp [Fams.visit, Operand.Writes, h]
      · cases write with
        | false => simp [Fams.visit, Operand.Writes, h]
        | true =>
            simp only [Fams.visit, Operand.Writes, h, if_true, Finset.mem_insert,
              Option.some.injEq, and_true]
            rw [or_comm, eq_comm]
  | mem base read write =>
      simp only [Fams.visit, Operand.Writes, or_false]
      split
      · split
        · rfl
        · split_ifs <;> rfl
      · rfl
  | imm value => simp [Fams.visit, Operand.Writes]

theorem mem_visits_fam {ops : List Operand} {s : Fams} {g : ℕ} :
    g ∈ (ops.foldl Fams.visit s).fam ↔
      g ∈ s.fam ∨ g ∉ s.written ∧ Before (Operand.PureRead g) (Operand.Writes g) ops := by
  induction ops generalizing s with
  | nil => simp [not_before_nil]
  | cons o ops ih =>
      rw [List.foldl_cons, ih, mem_visit_fam, mem_visit_written, before_cons]
      tauto

/-- The scan takes the operands of the preamble one after the other. -/
theorem scan_eq_foldl (s : Fams) (ii : List AsmInsn) :
    s.scan ii = ((preamble ii).flatMap AsmInsn.operands).foldl Fams.visit s := by
  induction ii generalizing s with
  | nil => rfl
  | cons ins ii ih =>
      rw [Fams.scan, preamble, List.takeWhile_cons]
      by_cases hcall : ins.mnemonic = py "call"
      · simp [hcall]
      · rw [if_neg hcall, ih, if_pos (by simpa using hcall), List.flatMap_cons, List.foldl_append]
        rfl

/-- **What the scan finds**: the groups that an operand of the preamble purely reads while no
earlier operand writes them. -/
theorem mem_directFams {ii : List AsmInsn} {g : ℕ} :
    g ∈ (directFams ii).fam ↔
      Before (Operand.PureRead g) (Operand.Writes g) ((preamble ii).flatMap AsmInsn.operands) := by
  rw [directFams, scan_eq_foldl, mem_visits_fam]
  simp

/-! ### Operands and instructions -/

/-- The instruction purely reads the group by some operand, or writes it. -/
def AsmInsn.Touches (g : ℕ) (ins : AsmInsn) : Prop :=
  (∃ o ∈ ins.operands, o.PureRead g) ∨ ins.Writes g

/-- Where the first instruction that touches the group both reads it by one operand and writes it
by another, a pure read stands before the writes exactly when none of these is also a read. -/
def OrderHarmless (ii : List AsmInsn) (g : ℕ) : Prop :=
  ∀ pre ins post, preamble ii = pre ++ ins :: post → (∀ i ∈ pre, ¬ i.Touches g) →
    (∃ o ∈ ins.operands, o.PureRead g) → ins.Writes g →
    (Before (Operand.PureRead g) (Operand.Writes g) ins.operands ↔
      ¬ ∃ o ∈ ins.operands, o.ReadWrites g)

/-- The condition is about the first instruction that touches the group. -/
theorem forall_first_touch {P : AsmInsn → Prop} {g : ℕ} {ins : AsmInsn} {l : List AsmInsn} :
    (∀ pre i post, ins :: l = pre ++ i :: post → (∀ j ∈ pre, ¬ j.Touches g) → P i) ↔
      P ins ∧ (¬ ins.Touches g →
        ∀ pre i post, l = pre ++ i :: post → (∀ j ∈ pre, ¬ j.Touches g) → P i) := by
  constructor
  · intro h
    refine ⟨h [] ins l rfl (by simp), fun hins pre i post hl hpre => ?_⟩
    exact h (ins :: pre) i post (by rw [hl]; rfl) (List.forall_mem_cons.mpr ⟨hins, hpre⟩)
  · rintro ⟨hhead, htail⟩ pre i post hl hpre
    cases pre with
    | nil =>
        obtain ⟨rfl, -⟩ := List.cons.inj hl
        exact hhead
    | cons j pre =>
        obtain ⟨rfl, htl⟩ := List.cons.inj hl
        obtain ⟨hj, hpre⟩ := List.forall_mem_cons.mp hpre
        exact htail hj pre i post htl hpre

theorem before_flatMap_iff {l : List AsmInsn} {g : ℕ} :
    (Before (Operand.PureRead g) (Operand.Writes g) (l.flatMap AsmInsn.operands) ↔
        Before (AsmInsn.PurelyReads g) (AsmInsn.Writes g) l) ↔
      ∀ pre ins post, l = pre ++ ins :: post → (∀ i ∈ pre, ¬ i.Touches g) →
        (∃ o ∈ ins.operands, o.PureRead g) → ins.Writes g →
        (Before (Operand.PureRead g) (Operand.Writes g) ins.operands ↔
          ¬ ∃ o ∈ ins.operands, o.ReadWrites g) := by
  induction l with
  | nil => simp [not_before_nil]
  | cons ins l ih =>
      rw [forall_first_touch, List.flatMap_cons, before_append, before_cons]
      have hwrites : (∀ o ∈ ins.operands, ¬ o.Writes g) ↔ ¬ ins.Writes g := by
        simp [AsmInsn.Writes]
      rw [hwrites]
      by_cases hw : ins.Writes g
      · -- the instruction writes the group, and what follows it does not count
        have htouch : ins.Touches g := .inr hw
        by_cases hr : ∃ o ∈ ins.operands, o.PureRead g
        · simp only [hw, hr, htouch, AsmInsn.PurelyReads, not_true_eq_false, false_and, or_false,
            true_and, true_implies, false_implies, and_true]
        · have hnone : ¬ Before (Operand.PureRead g) (Operand.Writes g) ins.operands :=
            fun h => hr h.exists_mem
          simp only [hw, hr, hnone, htouch, AsmInsn.PurelyReads, not_true_eq_false, false_and,
            or_false, false_implies, and_true]
      · have hbefore := before_of_forall_not (R := Operand.PureRead g) (hwrites.mpr hw)
        by_cases hr : ∃ o ∈ ins.operands, o.PureRead g
        · -- it reads the group and does not write it
          have hrw : ¬ ∃ o ∈ ins.operands, o.ReadWrites g :=
            fun ⟨o, ho, h⟩ => hw ⟨o, ho, h.writes⟩
          have htouch : ins.Touches g := .inl hr
          simp only [hbefore, hr, hw, hrw, htouch, AsmInsn.PurelyReads, not_false_eq_true,
            true_and, true_or, not_true_eq_false, false_implies, implies_true, and_true]
        · have htouch : ¬ ins.Touches g := fun h => h.elim hr hw
          simp only [hbefore, hr, hw, htouch, AsmInsn.PurelyReads, not_false_eq_true, false_and,
            false_or, true_and, false_implies, true_implies, ih]

/-- **Arity evidence.**  The scan finds the groups read before written exactly when for no group
the order of the operands matters in the first instruction that touches it. -/
theorem directFams_iff (ii : List AsmInsn) :
    (∀ g, g ∈ (directFams ii).fam ↔ ReadBeforeWrite ii g) ↔ ∀ g, OrderHarmless ii g := by
  refine forall_congr' fun g => ?_
  rw [mem_directFams, ReadBeforeWrite, before_flatMap_iff]
  rfl

/-- `movsxd rdi, edi`. -/
def signExtend : AsmInsn where
  mnemonic := py "movsxd"
  operands := [.reg (py "rdi") false true, .reg (py "edi") true false]
  jump := false
  ret := false

/-- It reads its argument, and the scan finds none. -/
theorem directFams_not_always :
    ¬ ∀ (ii : List AsmInsn) (g : ℕ), g ∈ (directFams ii).fam ↔ ReadBeforeWrite ii g := by
  intro h
  have hnone : 0 ∉ (directFams [signExtend]).fam := by decide
  have hcons : preamble [signExtend] = [signExtend] := rfl
  apply hnone
  rw [h, ReadBeforeWrite, hcons, before_cons]
  refine .inl ⟨⟨.reg (py "edi") true false, by decide, by decide, by decide⟩, ?_⟩
  rintro ⟨o, ho, hrw⟩
  simp only [signExtend, List.mem_cons, List.not_mem_nil, or_false] at ho
  rcases ho with rfl | rfl
  · exact absurd hrw.2.1 Bool.false_ne_true
  · exact absurd hrw.2.2 Bool.false_ne_true

end ReSchema
