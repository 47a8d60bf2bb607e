/-
ReSchema/OriginalVm.lean

Calls of an original on its virtual machine (`driver/calling.py`).

`Calling` takes the original as a black box; here it is a program on a machine.
A case is marshalled into the memory below the stack top and into registers,
and the function runs up to the return trap.  `call_original` boots a machine
for each case.  `batch_call_original` boots one, saves its core and restores it
before every case, if the screen for system calls lets it: the screen reads the
function's slice, as far as the symbol's size bounds it.

The emulator is given: the system under the machine, what a boot leaves, and a
number of instructions in place of the time limit.
-/
import ReSchema.Calling
import ReSchema.X86.Machine

namespace ReSchema

open Py X86

/-! ### Programs and the driver -/

/-- An exception of the emulator: its text, and whether it is a memory fault. -/
structure EmulatorError where
  text : PyStr
  memFault : Bool

/-- A binary: its code, its symbols with addresses and sizes, and where its text is. -/
structure Program where
  code : Listing EmulatorError
  symbols : Dict (ℕ × ℕ)
  textBase : ℕ
  textSize : ℕ

/-- The emulator. -/
structure Emulator (Os : Type) where
  system : System Os EmulatorError
  boot : Program → Vm Os
  stackAddress : ℤ
  budget : ℕ

/-- `SENTINEL`. -/
def sentinel : U64 := 0x1000000

/-- `BAREGS`. -/
def bareRegs : List Reg := [.rdi, .rsi, .rdx, .rcx, .r8, .r9]

/-- `SYSCALL_MNEMONICS`. -/
def syscallMnemonics : List String := ["syscall", "sysenter"]

/-! ### Traces -/

/-- The event of a call that did not return. -/
structure CallEvent where
  sc : PyStr
  args : List PyStr
  memFault : Option Bool

/-- The trace of a call; a key that is not set is `none`. -/
structure CallTrace where
  ret : ℤ
  mem : Dict Value
  exitCode : ℤ
  events : List CallEvent
  batchMode : Option PyStr

/-- The trace of a call that raised, or was stopped short of the return trap. -/
def raisedTrace (e : EmulatorError) : CallTrace :=
  ⟨0, [], -1, [⟨py "crash", [e.text], some e.memFault⟩], none⟩
def timeoutTrace : CallTrace := ⟨0, [], -1, [⟨py "timeout", [], none⟩], none⟩

/-- `o["batch_mode"] = mode`. -/
def CallTrace.withMode (t : CallTrace) (mode : PyStr) : CallTrace := { t with batchMode := some mode }

/-! ### One case -/

/-- The registers and pointers of a call as far as they are laid out, and the lowest address used. -/
structure CallFrame where
  core : Core
  top : ℤ
  regvals : List ℤ
  ptrs : Dict ℤ

/-- One argument; memory is taken downwards in pieces of 16 bytes. -/
def placeArg (mapped : U64 → Bool) (case : Case) (s : CallFrame) (p : Param) : Option CallFrame :=
  ((case.lookup p.name).bind (marshal p.kind)).bind fun
    | .scalar i => some { s with regvals := s.regvals ++ [i] }
    | .pointer data =>
        let top := s.top - ((data.length + 15) / 16 * 16 : ℕ)
        if top < 0 then none
        else (s.core.store mapped (BitVec.ofInt 64 top) data).map fun core =>
          ⟨core, top, s.regvals ++ [top], s.ptrs.set p.name top⟩

/-- The arguments, the registers and the return trap. -/
def setUp (mapped : U64 → Bool) (stackAddress : ℤ) (addr : ℕ) (params : List Param) (case : Case)
    (core : Core) : Option (Core × Dict ℤ) := do
  let s ← params.foldlM (placeArg mapped case) ⟨core, stackAddress, [], []⟩
  let core := (bareRegs.zip s.regvals).foldl
    (fun (c : Core) (r : Reg × ℤ) => c.set r.1 (BitVec.ofInt 64 r.2)) s.core
  let rsp := BitVec.ofInt 64 (s.top - (s.top - 8) % 16)
  let core ← (core.set .rsp rsp).store mapped rsp (wordBytes sentinel)
  return (core.set .rip (BitVec.ofNat 64 addr), s.ptrs)

/-- `struct.unpack("<ni", data)`. -/
def unpackI32 (data : List UInt8) (n : ℕ) : List ℤ :=
  (List.range n).map fun i =>
    (BitVec.ofNat 32 ((data.drop (4 * i)).take 4 |>.foldr (fun b k => b.toNat + 256 * k) 0)).toInt

/-- The number of cells or bytes behind a pointer. -/
def extent : Value → Option ℕ
  | .cells xs => some xs.length
  | .bytes b => some b.length
  | .int n => if 0 ≤ n then some n.toNat else none

/-- What is read back for one parameter. -/
def readArg (mapped : U64 → Bool) (case : Case) (core : Core) (ptrs : Dict ℤ) (mem : Dict Value)
    (p : Param) : Option (Dict Value) :=
  match p.kind with
  | .i32 => some mem
  | .bufferI32 => do
      let n ← (case.lookup p.name).bind extent
      let ptr ← ptrs.lookup p.name
      let data ← core.load mapped (BitVec.ofInt 64 ptr) (4 * n)
      return mem.set p.name (.cells (unpackI32 data n))
  | .cstring => do
      let n ← (case.lookup p.name).bind extent
      let ptr ← ptrs.lookup p.name
      let data ← core.load mapped (BitVec.ofInt 64 ptr) n
      return mem.set p.name (.bytes data)

section Original

variable {Os : Type} (em : Emulator Os) (program : Program)

/-- The machine as the function is entered, with the pointers. -/
def enter (addr : ℕ) (params : List Param) (case : Case) (vm : Vm Os) : Option (Vm Os × Dict ℤ) :=
  (setUp (em.system.mapped vm.os) em.stackAddress addr params case vm.core).map fun r =>
    ({ vm with core := r.1 }, r.2)

/-- The trace that a run leaves, with `none` for an exception that is not caught. -/
def leave (params : List Param) (case : Case) (ptrs : Dict ℤ) (vm : Vm Os) :
    Option EmulatorError → Option CallTrace
  | some e => some (raisedTrace e)
  | none =>
      if vm.core.regs .rip ≠ sentinel then some timeoutTrace
      else (params.foldlM (readArg (em.system.mapped vm.os) case vm.core ptrs) []).map fun mem =>
        ⟨((vm.core.regs .rax).setWidth 32).toInt, mem, 0, [], none⟩

/-- `_run_case(ql, addr, params, case)`: the trace, and the machine afterwards. -/
def runCaseOn (addr : ℕ) (params : List Param) (case : Case) (vm : Vm Os) :
    Option (CallTrace × Vm Os) := do
  let entered ← enter em addr params case vm
  let r := run em.system program.code sentinel em.budget entered.1
  let trace ← leave em params case entered.2 r.1 r.2
  return (trace, r.1)

/-- `call_original(binary, addr, params, case)`. -/
def callOriginal (addr : ℕ) (params : List Param) (case : Case) : Option CallTrace :=
  if registerCount < params.length then none
  else (runCaseOn em program addr params case (em.boot program)).map Prod.fst

/-! ### The screen for system calls -/

/-- The instructions from an address on, as far as they lie below another one. -/
def disasm (code : Listing EmulatorError) (stop : ℕ) : ℕ → ℕ → List (Insn EmulatorError)
  | 0, _ => []
  | fuel + 1, a =>
      match code.lookup a with
      | none => []
      | some insn =>
          if a + insn.size ≤ stop then insn :: disasm code stop fuel (a + insn.size) else []

/-- `function_insns(binary, addr, size)`, with `none` for a slice outside the text. -/
def functionInsns (addr size : ℕ) : Option (List (Insn EmulatorError)) :=
  if program.textBase ≤ addr ∧ addr < program.textBase + program.textSize ∧
      addr + size ≤ program.textBase + program.textSize
  then some (disasm program.code (addr + size) size addr) else none

/-- The size of the first symbol at an address, unless it is zero. -/
def symbolSize (addr : ℕ) : Option ℕ :=
  ((program.symbols.find? fun s => s.2.1 = addr).map fun s => s.2.2).filter (· ≠ 0)

/-- `_fn_has_syscall(binary, addr)`: within an exception, the answer if there is one. -/
def fnHasSyscall (addr : ℕ) : Option (Option Bool) :=
  match symbolSize program addr with
  | none => some none
  | some size => (functionInsns program addr size).map fun insns =>
      some (insns.any fun i => i.mnemonic ∈ syscallMnemonics)

/-! ### Batches -/

/-- The loop over one machine, whose core is restored before every case. -/
def snapshotLoop (snap : Core) (addr : ℕ) (params : List Param) :
    Vm Os → List Case → Option (List CallTrace)
  | _, [] => some []
  | vm, case :: cases => do
      let r ← runCaseOn em program addr params case { vm with core := snap }
      let outs ← snapshotLoop snap addr params r.2 cases
      return r.1.withMode (py "batched-snapshot") :: outs

/-- The loop over a machine for each case. -/
def fallbackLoop (addr : ℕ) (params : List Param) (cases : List Case) : Option (List CallTrace) :=
  cases.mapM fun case =>
    (runCaseOn em program addr params case (em.boot program)).map fun r =>
      r.1.withMode (py "fresh-vm-fallback")

/-- `batch_call_original(binary, addr, params, cases)` without instrumentation. -/
def batchCallOriginalOn (addr : ℕ) (params : List Param) (cases : List Case) :
    Option (List CallTrace) :=
  if registerCount < params.length then none
  else if cases = [] then some []
  else match fnHasSyscall program addr with
    | none => none
    | some (some false) =>
        let vm := em.boot program
        snapshotLoop em program vm.core addr params vm cases
    | some _ => fallbackLoop em program addr params cases

end Original

end ReSchema
