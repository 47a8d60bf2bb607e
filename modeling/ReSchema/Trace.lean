/-
ReSchema/Trace.lean

Recorded traces (`exec/recorder.py`).

Qiling runs a static binary and calls a hook at the entry and at the exit of
each logged syscall.  A `Run` is what it hands back: the hook calls in order
with their integer arguments, the two captured streams, how the run ended and
the files it left.  `record` makes the trace of it, all of whose numbers are
hexadecimal texts.

`Plain` is what these texts have in common and canonicalisation relies on:
they contain no slash and start with no capital A.
-/
import ReSchema.Py.Limits
import ReSchema.Py.IntHex

namespace ReSchema

open Py

/-! ### Events -/

/-- One event of a trace.  `result` is absent, `None`, or a text. -/
structure Event where
  phase : PyStr
  sc : PyStr
  args : List PyStr
  result : Option (Option PyStr)

instance : DecidableEq Event := fun e f =>
  decidable_of_iff (e.phase = f.phase ∧ e.sc = f.sc ∧ e.args = f.args ∧ e.result = f.result)
    (by cases e; cases f; simp)

/-- A trace; `argv0` is the first item of its `argv` and `argv` the rest. -/
structure Trace where
  argv0 : PyStr
  argv : List PyStr
  stdinHex : PyStr
  stdout : PyStr
  stderr : PyStr
  exitCode : ℤ
  filesWritten : Dict PyStr
  events : List Event

instance : DecidableEq Trace := fun t u =>
  decidable_of_iff (t.argv0 = u.argv0 ∧ t.argv = u.argv ∧ t.stdinHex = u.stdinHex ∧
    t.stdout = u.stdout ∧ t.stderr = u.stderr ∧ t.exitCode = u.exitCode ∧
    t.filesWritten = u.filesWritten ∧ t.events = u.events)
    (by cases t; cases u; simp)

section Json

variable {F : Type}

/-- The event as the dictionary the recorder builds. -/
def Event.toJson (e : Event) : Json F :=
  .obj ([(py "phase", .str e.phase), (py "sc", .str e.sc), (py "args", strs e.args)] ++
    match e.result with
    | none => []
    | some none => [(py "result", .null)]
    | some (some r) => [(py "result", .str r)])

/-- The written files as a JSON object. -/
def filesJson (files : Dict PyStr) : Json F := .obj (files.map fun p => (p.1, .str p.2))

/-- The trace as the dictionary the recorder returns. -/
def Trace.toJson (t : Trace) : Json F :=
  .obj [(py "argv", strs (t.argv0 :: t.argv)), (py "stdin_hex", .str t.stdinHex),
    (py "stdout", .str t.stdout), (py "stderr", .str t.stderr), (py "exit_code", .int t.exitCode),
    (py "files_written", filesJson t.filesWritten), (py "events", .arr (t.events.map Event.toJson))]

end Json

/-! ### Runs -/

/-- `LOG_SYSCALLS`. -/
inductive Syscall
  | read | write | writev | «open» | openat | creat | close | brk | mmap | exitGroup
  deriving DecidableEq

def Syscall.name : Syscall → PyStr
  | .read => py "read"
  | .write => py "write"
  | .writev => py "writev"
  | .open => py "open"
  | .openat => py "openat"
  | .creat => py "creat"
  | .close => py "close"
  | .brk => py "brk"
  | .mmap => py "mmap"
  | .exitGroup => py "exit_group"

/-- The two hooks of a syscall. -/
inductive Phase
  | enter
  | exit
  deriving DecidableEq

/-- One hook call: the arguments, and at the exit the return value behind them.  Qiling
passes integers, and `None` for a syscall that returns nothing. -/
structure HookCall where
  sc : Syscall
  phase : Phase
  raw : List (Option ℤ)

/-- How `ql.run` ended: with the exit code it reports, or with an exception. -/
inductive Ending
  | finished (code : ℤ)
  | raised (exception message : PyStr)

/-- What one execution under qiling leaves behind. -/
structure Outcome where
  out : Bytes
  err : Bytes
  hooks : List HookCall
  ending : Ending
  files : Dict Bytes
  nodup_files : files.keys.Nodup

/-- One execution, with what it was started on. -/
structure Run extends Outcome where
  binary : PyStr
  argv : List PyStr
  stdin : Bytes

/-- `_fmt(a)`. -/
def fmt : Option ℤ → PyStr
  | some i => hexText i
  | none => py "None"

/-- The event that the hook appends. -/
def HookCall.event (h : HookCall) : Event :=
  match h.phase with
  | .enter => ⟨py "enter", h.sc.name, h.raw.map fmt, none⟩
  | .exit => ⟨py "exit", h.sc.name, h.raw.dropLast.map fmt, some (h.raw.getLast?.map fmt)⟩

/-- Whether the guest got as far as `exit_group`. -/
def Run.exited (r : Run) : Bool := r.hooks.any fun h => h.sc = .exitGroup ∧ h.phase = .enter

/-- The marker appended to a run that did not end by itself. -/
def Run.faults (r : Run) : List Event :=
  match r.ending with
  | .finished _ => if r.exited then [] else [⟨py "fault", py "timeout", [], none⟩]
  | .raised exception message =>
      [⟨py "fault", py "crash", [exception ++ py ": " ++ message], none⟩]

/-- The exit code of the trace. -/
def Run.exitCode (r : Run) : ℤ :=
  match r.ending with
  | .finished code => if r.exited then code else -1
  | .raised _ _ => -1

/-- `record(binary, argv, stdin)`. -/
def record (r : Run) : Trace where
  argv0 := r.binary
  argv := r.argv
  stdinHex := hex r.stdin
  stdout := hex r.out
  stderr := hex r.err
  exitCode := r.exitCode
  filesWritten := r.files.map fun p => (p.1, hex p.2)
  events := r.hooks.map HookCall.event ++ r.faults

/-! ### What the texts of a hook look like -/

/-- A text without a slash that starts with no capital A. -/
def Plain (a : PyStr) : Prop := ch '/' ∉ a ∧ a.head? ≠ some (ch 'A')

theorem plain_map_digits {p : String} {n : ℕ} (hp : '/' ∉ p.toList)
    (hhead : ∃ c r, p.toList = c :: r ∧ c ≠ 'A') :
    Plain (py p ++ (Nat.toDigits 16 n).map ch) := by
  have hdigit : ∀ k < 16, Nat.digitChar k ≠ '/' := by decide
  obtain ⟨c, r, hc, hA⟩ := hhead
  refine ⟨fun h => ?_, by simp [py, hc, hA]⟩
  rcases List.mem_append.mp h with h | h
  · obtain ⟨d, hd, he⟩ := List.mem_map.mp h
    exact hp (ch_inj.mp he ▸ hd)
  · obtain ⟨d, hd, he⟩ := List.mem_map.mp h
    obtain ⟨k, hk, rfl⟩ := exists_of_mem_toDigits hd
    exact hdigit k hk (ch_inj.mp he)

theorem plain_hexText (i : ℤ) : Plain (hexText i) := by
  unfold hexText
  split
  · exact plain_map_digits (p := "-0x") (by decide) ⟨'-', ['0', 'x'], rfl, by decide⟩
  · exact plain_map_digits (p := "0x") (by decide) ⟨'0', ['x'], rfl, by decide⟩

theorem plain_fmt (a : Option ℤ) : Plain (fmt a) := by
  cases a with
  | none => exact ⟨by decide, by decide⟩
  | some i => exact plain_hexText i

/-- All texts of the event are plain. -/
def Event.Raw (e : Event) : Prop :=
  (∀ a ∈ e.args, Plain a) ∧ ∀ r, e.result = some (some r) → Plain r

theorem HookCall.raw_event (h : HookCall) : h.event.Raw := by
  have args : ∀ (raw : List (Option ℤ)), ∀ a ∈ raw.map fmt, Plain a := by
    rintro raw _ ha
    obtain ⟨x, -, rfl⟩ := List.mem_map.mp ha
    exact plain_fmt x
  cases hp : h.phase with
  | enter => exact ⟨by simpa [event, hp] using args h.raw, by simp [event, hp]⟩
  | exit =>
      refine ⟨by simpa [event, hp] using args h.raw.dropLast, fun r hr => ?_⟩
      obtain ⟨x, -, rfl⟩ : ∃ x, h.raw.getLast? = some x ∧ fmt x = r := by
        simpa [event, hp] using hr
      exact plain_fmt x

end ReSchema
