/-
ReSchema/X86/Machine.lean

A user-mode machine over an operating system.

The core of a machine is what a snapshot covers: registers and the content of
the memory.  The state of the operating system is everything else (open files,
descriptors, which addresses are mapped), and only a system call changes it.
A program is a list of instructions with their addresses: an instruction has
an effect on the core, or jumps, calls, returns, or enters the system.

Main result: a run that executes no system call leaves the state of the
operating system as it was (`run_os`), so that restoring the core restores the
machine.
-/
import Mathlib

namespace X86

abbrev U64 := BitVec 64

inductive Reg
  | rax | rbx | rcx | rdx | rsi | rdi | rbp | rsp
  | r8 | r9 | r10 | r11 | r12 | r13 | r14 | r15
  | rip | flags | fsBase | gsBase
  deriving DecidableEq

/-! ### The core -/

/-- Registers and memory. -/
structure Core where
  regs : Reg → U64
  mem : U64 → UInt8

def Core.set (c : Core) (r : Reg) (v : U64) : Core := { c with regs := Function.update c.regs r v }

@[simp] theorem Core.set_mem (c : Core) (r : Reg) (v : U64) : (c.set r v).mem = c.mem := rfl

@[simp] theorem Core.set_self (c : Core) (r : Reg) (v : U64) : (c.set r v).regs r = v :=
  Function.update_self ..

theorem Core.set_of_ne (c : Core) {r r' : Reg} (v : U64) (h : r' ≠ r) :
    (c.set r v).regs r' = c.regs r' := Function.update_of_ne h ..

/-- The bytes of a word, from the lowest. -/
def wordBytes (v : U64) : List UInt8 := (List.range 8).map fun i => UInt8.ofNat (v.toNat / 2 ^ (8 * i))

/-- The word of some bytes. -/
def bytesWord (bs : List UInt8) : U64 :=
  BitVec.ofNat 64 (bs.foldr (fun b n => b.toNat + 256 * n) 0)

/-- The bytes from an address on, unless one is not mapped. -/
def Core.load (mapped : U64 → Bool) (c : Core) (a : U64) (n : ℕ) : Option (List UInt8) :=
  if (List.range n).all fun i => mapped (a + BitVec.ofNat 64 i)
  then some ((List.range n).map fun i => c.mem (a + BitVec.ofNat 64 i)) else none

/-- The bytes written from an address on, unless one is not mapped. -/
def Core.store (mapped : U64 → Bool) (c : Core) (a : U64) (data : List UInt8) : Option Core :=
  if (List.range data.length).all fun i => mapped (a + BitVec.ofNat 64 i)
  then some { c with mem := fun x => (data[(x - a).toNat]?).getD (c.mem x) } else none

/-! ### Instructions -/

section Machine

variable {Os ε : Type}

/-- What an instruction does; `ε` is the type of exceptions. -/
inductive Action (ε : Type)
  | effect (f : (U64 → Bool) → Core → Except ε Core)
  | jump (target : Core → Option U64)
  | call (target : Core → U64)
  | ret
  | syscall

/-- An instruction; the ones that enter the system are known from their mnemonics. -/
structure Insn (ε : Type) where
  mnemonic : String
  size : ℕ
  action : Action ε
  size_pos : 0 < size
  syscall_iff : action = .syscall ↔ mnemonic = "syscall" ∨ mnemonic = "sysenter"

/-- Instructions by their addresses. -/
abbrev Listing (ε : Type) := List (ℕ × Insn ε)

structure Vm (Os : Type) where
  core : Core
  os : Os

inductive Access
  | read
  | write
  | fetch

/-- How the system goes on after a call: with the program, not at all, or with an exception. -/
inductive Signal (ε : Type)
  | go
  | stop
  | raise (e : ε)

/-- The system: the addresses that are mapped, its calls, and the exception of a bad access. -/
structure System (Os ε : Type) where
  mapped : Os → U64 → Bool
  kernel : Vm Os → Vm Os × Signal ε
  fault : Access → U64 → ε

/-! ### Execution -/

inductive StepEnd (Os ε : Type)
  | next (vm : Vm Os)
  | stopped (vm : Vm Os)
  | raised (vm : Vm Os) (e : ε)

/-- The machine after a step. -/
def StepEnd.vm : StepEnd Os ε → Vm Os
  | .next vm => vm
  | .stopped vm => vm
  | .raised vm _ => vm

/-- One instruction. -/
def execute (sys : System Os ε) (vm : Vm Os) (insn : Insn ε) : StepEnd Os ε :=
  let rip := vm.core.regs .rip
  let rsp := vm.core.regs .rsp
  let next := rip + BitVec.ofNat 64 insn.size
  match insn.action with
  | .effect f =>
      match f (sys.mapped vm.os) vm.core with
      | .ok core => .next { vm with core := core.set .rip next }
      | .error e => .raised vm e
  | .jump target => .next { vm with core := vm.core.set .rip ((target vm.core).getD next) }
  | .call target =>
      match vm.core.store (sys.mapped vm.os) (rsp - 8) (wordBytes next) with
      | some core =>
          .next { vm with core := (core.set .rsp (rsp - 8)).set .rip (target vm.core) }
      | none => .raised vm (sys.fault .write (rsp - 8))
  | .ret =>
      match vm.core.load (sys.mapped vm.os) rsp 8 with
      | some bs => .next { vm with core := (vm.core.set .rsp (rsp + 8)).set .rip (bytesWord bs) }
      | none => .raised vm (sys.fault .read rsp)
  | .syscall =>
      match sys.kernel { vm with core := vm.core.set .rip next } with
      | (vm', .go) => .next vm'
      | (vm', .stop) => .stopped vm'
      | (vm', .raise e) => .raised vm' e

/-- At most so many instructions up to an address: the machine afterwards, and the exception if one
was raised. -/
def run (sys : System Os ε) (code : Listing ε) (stop : U64) : ℕ → Vm Os → Vm Os × Option ε
  | 0, vm => (vm, none)
  | budget + 1, vm =>
      if vm.core.regs .rip = stop then (vm, none)
      else match code.lookup (vm.core.regs .rip).toNat with
        | none => (vm, some (sys.fault .fetch (vm.core.regs .rip)))
        | some insn =>
            match execute sys vm insn with
            | .next vm' => run sys code stop budget vm'
            | .stopped vm' => (vm', none)
            | .raised vm' e => (vm', some e)

/-- The instructions that such a run executes. -/
def executed (sys : System Os ε) (code : Listing ε) (stop : U64) : ℕ → Vm Os → List (Insn ε)
  | 0, _ => []
  | budget + 1, vm =>
      if vm.core.regs .rip = stop then []
      else match code.lookup (vm.core.regs .rip).toNat with
        | none => []
        | some insn =>
            match execute sys vm insn with
            | .next vm' => insn :: executed sys code stop budget vm'
            | _ => [insn]

/-- One instruction that is no system call leaves the state of the system alone. -/
theorem execute_os (sys : System Os ε) {insn : Insn ε} (h : insn.action ≠ .syscall) (vm : Vm Os) :
    (execute sys vm insn).vm.os = vm.os := by
  rw [execute.eq_def]
  dsimp only
  rcases hact : insn.action with f | target | target | - | -
  · -- an effect on the core
    dsimp only
    rcases f (sys.mapped vm.os) vm.core with e | core <;> rfl
  · rfl
  · -- a call
    dsimp only
    split <;> rfl
  · -- a return
    dsimp only
    split <;> rfl
  · exact absurd hact h

/-- **Runs without system calls.**  The state of the system is what it was. -/
theorem run_os {sys : System Os ε} {code : Listing ε} {stop : U64} {budget : ℕ} {vm : Vm Os}
    (h : ∀ insn ∈ executed sys code stop budget vm, insn.action ≠ .syscall) :
    (run sys code stop budget vm).1.os = vm.os := by
  induction budget generalizing vm with
  | zero => rfl
  | succ budget ih =>
      rw [run]
      rw [executed] at h
      split_ifs at h ⊢ with hstop
      · rfl
      · rcases hinsn : code.lookup (vm.core.regs .rip).toNat with - | insn
        · rfl
        · simp only [hinsn] at h
          dsimp only
          have hfirst : insn.action ≠ .syscall := by
            apply h
            split
            · exact List.mem_cons_self
            · exact List.mem_singleton_self insn
          have hos := execute_os sys hfirst vm
          rcases hstep : execute sys vm insn with vm' | vm' | ⟨vm', e⟩
          · rw [hstep] at hos h
            dsimp only
            rw [ih fun i hi => h i (List.mem_cons_of_mem _ hi)]
            exact hos
          · rw [hstep] at hos
            exact hos
          · rw [hstep] at hos
            exact hos

/-- An exception of a run is a fault, or one that an instruction of the program raised. -/
theorem run_raised {P : ε → Prop} {sys : System Os ε} {code : Listing ε} {stop : U64}
    (hfault : ∀ access a, P (sys.fault access a))
    (hinsn : ∀ p ∈ code, ∀ vm vm' e, execute sys vm p.2 = .raised vm' e → P e) {budget : ℕ}
    {vm : Vm Os} {e : ε} (h : (run sys code stop budget vm).2 = some e) : P e := by
  induction budget generalizing vm with
  | zero => cases h
  | succ budget ih =>
      rw [run] at h
      split_ifs at h with hstop
      rcases hlookup : code.lookup (vm.core.regs .rip).toNat with - | insn
      · simp only [hlookup, Option.some.injEq] at h
        exact h ▸ hfault _ _
      · rcases hstep : execute sys vm insn with vm' | vm' | ⟨vm', e'⟩
        · simp only [hlookup, hstep] at h
          exact ih h
        · simp only [hlookup, hstep] at h
          cases h
        · simp only [hlookup, hstep, Option.some.injEq] at h
          have hmem : ((vm.core.regs .rip).toNat, insn) ∈ code := by
            obtain ⟨l₁, l₂, rfl, -⟩ := List.lookup_eq_some_iff.mp hlookup
            exact List.mem_append_right _ List.mem_cons_self
          exact h ▸ hinsn _ hmem vm vm' e' hstep

/-- What is executed is in the program. -/
theorem mem_code_of_executed {sys : System Os ε} {code : Listing ε} {stop : U64} {budget : ℕ}
    {vm : Vm Os} {insn : Insn ε} (h : insn ∈ executed sys code stop budget vm) :
    ∃ a, (a, insn) ∈ code := by
  induction budget generalizing vm with
  | zero => exact absurd h List.not_mem_nil
  | succ budget ih =>
      rw [executed] at h
      split at h
      · exact absurd h List.not_mem_nil
      · rcases hinsn : code.lookup (vm.core.regs .rip).toNat with - | i
        · simp [hinsn] at h
        · simp only [hinsn] at h
          have hi : ∃ a, (a, i) ∈ code := by
            obtain ⟨l, r, rfl, -⟩ := List.lookup_eq_some_iff.mp hinsn
            exact ⟨_, List.mem_append_right l List.mem_cons_self⟩
          split at h
          · rcases List.mem_cons.mp h with rfl | h
            · exact hi
            · exact ih h
          · rw [List.mem_singleton.mp h]
            exact hi

end Machine

end X86
