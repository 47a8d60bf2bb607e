/-
ReSchema/BatchedOriginals.lean

When one machine for a batch is as good as a machine for each case.

A snapshot covers the core.  So the restored machine is the booted one as long
as the state of the system has not changed, and it has not if no case so far
executed a system call (`run_os`).  The screen does not promise that: it reads
the function's slice and does not follow its calls and jumps.

The main result is the contract that the driver states, for syscall-free
kernels with their callees (`batch_eq_fresh`).  A function whose callee opens
something is outside of it, and passes the screen (`batch_not_fresh`).
-/
import ReSchema.OriginalVm

namespace ReSchema

open Py X86

/-- A trace without its `batch_mode`. -/
def CallTrace.plain (t : CallTrace) : CallTrace := { t with batchMode := none }

@[simp] theorem CallTrace.plain_withMode (t : CallTrace) (mode : PyStr) :
    (t.withMode mode).plain = t.plain := rfl

section Original

variable {Os : Type} {em : Emulator Os} {program : Program} {addr : ℕ} {params : List Param}

/-- A case whose run on a fresh machine executes no system call. -/
def SyscallFree (em : Emulator Os) (program : Program) (addr : ℕ) (params : List Param)
    (case : Case) : Prop :=
  ∀ entered, enter em addr params case (em.boot program) = some entered →
    ∀ insn ∈ executed em.system program.code sentinel em.budget entered.1, insn.action ≠ .syscall

/-- A program without system calls is one of this kind. -/
theorem syscallFree_of_code (h : ∀ p ∈ program.code, p.2.action ≠ .syscall) (case : Case) :
    SyscallFree em program addr params case := by
  intro entered henter insn hinsn
  obtain ⟨a, ha⟩ := mem_code_of_executed hinsn
  exact h (a, insn) ha

theorem leave_plain {case : Case} {ptrs : Dict ℤ} {vm : Vm Os} {e : Option EmulatorError}
    {t : CallTrace} (h : leave em params case ptrs vm e = some t) : t.plain = t := by
  cases e with
  | some e =>
      cases h
      rfl
  | none =>
      rw [leave] at h
      split at h
      · cases h
        rfl
      · obtain ⟨mem, -, rfl⟩ := Option.map_eq_some_iff.mp h
        rfl

/-- What there is to know of a case that ran. -/
theorem runCaseOn_some {case : Case} {vm : Vm Os} {r : CallTrace × Vm Os}
    (h : runCaseOn em program addr params case vm = some r) :
    r.1.plain = r.1 ∧ ∃ entered, enter em addr params case vm = some entered ∧
      r.2 = (run em.system program.code sentinel em.budget entered.1).1 := by
  obtain ⟨entered, henter, h⟩ := Option.bind_eq_some_iff.mp h
  obtain ⟨t, hleave, h⟩ := Option.bind_eq_some_iff.mp h
  cases h
  exact ⟨leave_plain hleave, entered, henter, rfl⟩

/-- **One case.**  On a fresh machine a case without system calls leaves the state of the system as
the boot left it. -/
theorem runCaseOn_os {case : Case} (hfree : SyscallFree em program addr params case)
    {r : CallTrace × Vm Os}
    (h : runCaseOn em program addr params case (em.boot program) = some r) :
    r.2.os = (em.boot program).os := by
  obtain ⟨-, entered, henter, hr⟩ := runCaseOn_some h
  have hos : entered.1.os = (em.boot program).os := by
    obtain ⟨placed, -, rfl⟩ := Option.map_eq_some_iff.mp henter
    rfl
  rw [hr, run_os (hfree entered henter), hos]

/-- The traces of fresh machines. -/
theorem fallbackLoop_plain (cases : List Case) :
    (fallbackLoop em program addr params cases).map (List.map CallTrace.plain) =
      cases.mapM fun case =>
        (runCaseOn em program addr params case (em.boot program)).map Prod.fst := by
  induction cases with
  | nil => rfl
  | cons case cases ih =>
      have hstep : fallbackLoop em program addr params (case :: cases) = do
          let t ← (runCaseOn em program addr params case (em.boot program)).map fun r =>
            r.1.withMode (py "fresh-vm-fallback")
          let outs ← fallbackLoop em program addr params cases
          return t :: outs := List.mapM_cons
      rw [hstep, List.mapM_cons, ← ih]
      rcases hr : runCaseOn em program addr params case (em.boot program) with - | r
      · rfl
      · have hplain := (runCaseOn_some hr).1
        rcases fallbackLoop em program addr params cases with - | outs
        · rfl
        · simp only [Option.map_some, Option.bind_eq_bind, Option.bind_some, Option.pure_def,
            List.map_cons, CallTrace.plain_withMode, hplain]

/-- **The batch.**  As long as the state of the system is that of the boot, the restored machine is
the booted one; every case but the last has to leave it so. -/
theorem snapshotLoop_plain {cases : List Case}
    (hfree : ∀ case ∈ cases.dropLast, SyscallFree em program addr params case) {vm : Vm Os}
    (hos : vm.os = (em.boot program).os) :
    (snapshotLoop em program (em.boot program).core addr params vm cases).map
        (List.map CallTrace.plain) =
      cases.mapM fun case =>
        (runCaseOn em program addr params case (em.boot program)).map Prod.fst := by
  induction cases generalizing vm with
  | nil => rfl
  | cons case cases ih =>
      have hrestored : { vm with core := (em.boot program).core } = em.boot program := by
        rw [hos]
      rw [snapshotLoop, List.mapM_cons, hrestored]
      rcases hr : runCaseOn em program addr params case (em.boot program) with - | r
      · rfl
      · have hplain := (runCaseOn_some hr).1
        -- the rest of the batch, if there is any
        have hrest : (snapshotLoop em program (em.boot program).core addr params r.2 cases).map
              (List.map CallTrace.plain) =
            cases.mapM fun case =>
              (runCaseOn em program addr params case (em.boot program)).map Prod.fst := by
          cases cases with
          | nil => rfl
          | cons next rest =>
              rw [List.dropLast_cons_cons, List.forall_mem_cons] at hfree
              exact ih hfree.2 (runCaseOn_os hfree.1 hr)
        rw [← hrest]
        simp only [Option.map_some, Option.bind_eq_bind, Option.bind_some, Option.pure_def]
        rcases snapshotLoop em program (em.boot program).core addr params r.2 cases
          with - | outs
        · rfl
        · simp only [Option.map_some, Option.bind_some, List.map_cons, CallTrace.plain_withMode,
            hplain]

/-- Either way of running the batch gives the traces of the single calls. -/
theorem batch_plain {cases : List Case} (harity : ¬ registerCount < params.length)
    (hscreen : fnHasSyscall program addr ≠ none)
    (hfree : fnHasSyscall program addr = some (some false) →
      ∀ case ∈ cases.dropLast, SyscallFree em program addr params case) :
    (batchCallOriginalOn em program addr params cases).map (List.map CallTrace.plain) =
      cases.mapM (callOriginal em program addr params) := by
  have hcall : callOriginal em program addr params = fun case =>
      (runCaseOn em program addr params case (em.boot program)).map Prod.fst := by
    funext case
    rw [callOriginal, if_neg harity]
  rw [batchCallOriginalOn, if_neg harity, hcall]
  by_cases hnil : cases = []
  · rw [if_pos hnil, hnil]
    rfl
  rw [if_neg hnil]
  rcases hs : fnHasSyscall program addr with - | (- | (- | -))
  · exact absurd hs hscreen
  · exact fallbackLoop_plain cases
  · exact snapshotLoop_plain (hfree hs) rfl
  · exact fallbackLoop_plain cases

/-- **Batched originals.**  Where the screen can be read and either sends the batch to fresh machines
or no case but the last executes a system call, the batch has the traces of the single calls. -/
theorem batch_eq_fresh {cases : List Case} (hscreen : fnHasSyscall program addr ≠ none)
    (hfree : fnHasSyscall program addr = some (some false) →
      ∀ case ∈ cases.dropLast, SyscallFree em program addr params case) :
    (batchCallOriginalOn em program addr params cases).map (List.map CallTrace.plain) =
      if registerCount < params.length then none
      else cases.mapM (callOriginal em program addr params) := by
  by_cases harity : registerCount < params.length
  · -- the guard of both comes first
    rw [batchCallOriginalOn, if_pos harity, if_pos harity]
    rfl
  · rw [if_neg harity]
    exact batch_plain harity hscreen hfree

end Original

/-! ### A callee that opens something -/

/-- A system whose calls return the next descriptor. -/
def openSystem : System ℕ EmulatorError where
  mapped _ _ := true
  kernel vm := (⟨vm.core.set .rax (BitVec.ofNat 64 vm.os), vm.os + 1⟩, .go)
  fault _ _ := ⟨[], true⟩

def openEmulator : Emulator ℕ where
  system := openSystem
  boot _ := ⟨⟨fun _ => 0, fun _ => 0⟩, 3⟩
  stackAddress := 0x7fff0000
  budget := 100

def callInsn (target : U64) : Insn EmulatorError :=
  ⟨"call", 5, .call fun _ => target, by decide, by simp⟩
def retInsn : Insn EmulatorError := ⟨"ret", 1, .ret, by decide, by simp⟩
def syscallInsn : Insn EmulatorError := ⟨"syscall", 2, .syscall, by decide, by simp⟩

/-- A function that only calls another one, which only does a system call. -/
def openProgram : Program where
  code := [(0x401000, callInsn 0x401010), (0x401005, retInsn), (0x401010, syscallInsn),
    (0x401012, retInsn)]
  symbols := [(py "next", (0x401000, 6)), (py "open", (0x401010, 3))]
  textBase := 0x401000
  textSize := 0x13

/-- A function that only returns. -/
def returnProgram : Program where
  code := [(0x401000, retInsn)]
  symbols := [(py "nop", (0x401000, 1))]
  textBase := 0x401000
  textSize := 1

theorem batch_eq_fresh_return :
    (batchCallOriginalOn openEmulator returnProgram 0x401000 [] [[], []]).map
        (List.map CallTrace.plain) =
      if registerCount < ([] : List Param).length then none
      else [[], []].mapM (callOriginal openEmulator returnProgram 0x401000 []) := by
  refine batch_eq_fresh (by decide +kernel) fun _ case _ => ?_
  apply syscallFree_of_code
  simp [returnProgram, retInsn]

/-- With two cases, the second one sees what the first one opened. -/
theorem batch_not_fresh : ¬ ∀ (Os : Type) (em : Emulator Os) (program : Program) (addr : ℕ)
    (params : List Param) (cases : List Case),
    (batchCallOriginalOn em program addr params cases).map (List.map CallTrace.plain) =
      if registerCount < params.length then none
      else cases.mapM (callOriginal em program addr params) := by
  intro hall
  have hrets := congrArg (Option.map (List.map CallTrace.ret))
    (hall ℕ openEmulator openProgram 0x401000 [] [[], []])
  have hbatch : ((batchCallOriginalOn openEmulator openProgram 0x401000 [] [[], []]).map
      (List.map CallTrace.plain)).map (List.map CallTrace.ret) = some [3, 4] := by
    decide +kernel
  have hfresh : (if registerCount < ([] : List Param).length then none
      else [[], []].mapM (callOriginal openEmulator openProgram 0x401000 [])).map
        (List.map CallTrace.ret) = some [3, 3] := by
    decide +kernel
  rw [hbatch, hfresh] at hrets
  exact absurd hrets (by decide)

end ReSchema
