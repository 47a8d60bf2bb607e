/-
ReSchema/FunctionProbe.lean

The operation `experiment_function` behind `parse` (`operations.py`).

`execute` reads the function of the task from a private file, calls the original
twice with the worker's case, each time on a machine of its own, and shows the
trace if the calls left the same.  A trace that would be too long to be shown is
cut; there the source says that a fault message is the only field without a
bound.

  * `pyEq_hexed`:     two calls look alike just when they left the same;
  * `length_hexed`:   the trace of a call that came back is short;
  * `function_shown`: what the operation shows, from the worker's JSON on.
-/
import ReSchema.BatchedOriginals
import ReSchema.Experiment
import ReSchema.FunctionComplete
import ReSchema.HonestWorker
import ReSchema.SlotTasks

namespace ReSchema

open Py X86

/-! ### The operation -/

section Shown

variable {F : Type}

/-- An event, as the trace has it. -/
def CallEvent.toJson (e : CallEvent) : Json F :=
  .obj ([(py "phase", .str (py "fault")), (py "sc", .str e.sc), (py "args", strs e.args)] ++
    (e.memFault.map fun b => (py "mem_fault", Json.bool b)).toList)

/-- `_hexed(t)`: octets are shown in hex. -/
def CallTrace.hexed (t : CallTrace) : Json F :=
  .obj ([(py "ret", .int t.ret), (py "mem", .obj (wire t.mem)), (py "exit_code", .int t.exitCode),
      (py "events", .arr (t.events.map CallEvent.toJson))] ++
    (t.batchMode.map fun mode => (py "batch_mode", Json.str mode)).toList)

/-- `OperationResult`, with the probes that are charged. -/
structure CallShown (F : Type) where
  succeeded : Bool
  probes : ℕ
  shown : Json F

/-- The failures that are shown. -/
def callFailed (probes : ℕ) (error : String) : CallShown F :=
  ⟨false, probes, .obj [(py "error", .str (py error))]⟩

variable [Runtime F]

/-- The result for the traces of the two calls, with `none` for the assertion of `_capped`. -/
def showCall (a b : CallTrace) : Option (CallShown F) :=
  if pyEq (a.hexed : Json F) b.hexed then
    if (dumps plain (a.hexed : Json F)).length ≤ shownLimit - 1024 then some ⟨true, 1, a.hexed⟩
    else (capped a.hexed).map fun brief => ⟨true, 1, brief⟩
  else some (callFailed 1 "flaky: two calls on this case differ")

/-- `ExperimentFunction.execute(ctx, arguments)`, with `none` for an exception: `task` is the text
of the private `task.json`, `program` is the binary, and the calls are on `em` and `em'`. -/
def executeFunction {Os : Type} (lim : Limits F) (em em' : Emulator Os) (program : Program)
    (task : Bytes) (arguments : Json F) : Option (CallShown F) := do
  match ← experimentTarget F task with
  | none => some (callFailed 0 "experiment_function needs a function task")
  | some fn =>
      let (params, case) ← executeArgs lim arguments
      let addr ← (fn.get? (py "addr")).bind Json.int?
      let a ← callOriginal em program addr.toNat params case
      let b ← callOriginal em' program addr.toNat params case
      showCall a b

end Shown

/-! ### What a call leaves -/

/-- What may have been read back for a parameter. -/
inductive ReadItem : Kind → Value → Prop
  | cells (xs : List ℤ) (length_le : xs.length ≤ 64) (int32 : ∀ x ∈ xs, x.natAbs < 2 ^ 33) :
      ReadItem .bufferI32 (.cells xs)
  | bytes (b : Bytes) (length_le : b.length ≤ 256) : ReadItem .cstring (.bytes b)

/-- The memory that was read back for some parameters, in their order. -/
def ReadMem (params : List Param) (mem : Dict Value) : Prop :=
  List.Forall₂ (fun p e => e.1 = p.name ∧ ReadItem p.kind e.2) (params.filter isChannel) mem

/-- The traces of calls with some parameters. -/
inductive Left (params : List Param) : CallTrace → Prop
  | raised (e : EmulatorError) (short : e.text.length < 2 ^ 63) : Left params (raisedTrace e)
  | timeout : Left params timeoutTrace
  | returned (ret : ℤ) (mem : Dict Value) (int32 : ret.natAbs < 2 ^ 33) (read : ReadMem params mem) :
      Left params ⟨ret, mem, 0, [], none⟩

theorem ReadMem.keys {params : List Param} {mem : Dict Value} (h : ReadMem params mem) :
    mem.keys = (params.filter isChannel).map Param.name :=
  (related_map h fun _ _ he => he.1.symm).symm

section Left

variable {params : List Param} {case : Case} {mapped : U64 → Bool} {core : Core} {ptrs : Dict ℤ}

/-- What is read back for one parameter is set in its order. -/
theorem readArg_left {p : Param} {value : Value} (hvalue : case.lookup p.name = some value)
    (hsuits : Suits p.kind value)
    (hsize : ∀ data, marshal p.kind value = some (.pointer data) → data.length ≤ maxArg)
    {mem mem' : Dict Value} (h : readArg mapped case core ptrs mem p = some mem') :
    (isChannel p = false ∧ mem' = mem) ∨
      (isChannel p = true ∧ ∃ item, ReadItem p.kind item ∧ mem' = mem.set p.name item) := by
  have hlimit : maxArg = 256 := rfl
  -- a scalar is not read back, a buffer as cells of four bytes, a string as its bytes
  rcases hkind : p.kind with - | - | -
  · left
    rw [readArg, hkind] at h
    exact ⟨by simp [isChannel, hkind], (Option.some.inj h).symm⟩
  · right
    refine ⟨by simp [isChannel, hkind], ?_⟩
    obtain ⟨data, n, hdata, hextent, hread⟩ := hsuits.readBack (by simp [hkind])
    have hn : n ≤ 64 := by
      have := hsize data hdata
      rcases hread with ⟨-, hlen, -⟩ | ⟨hstring, -, -⟩
      · omega
      · rw [hkind] at hstring
        cases hstring
    rw [readArg, hkind] at h
    simp only [hvalue, Option.bind_some, hextent, Option.bind_eq_bind] at h
    obtain ⟨ptr, -, h⟩ := Option.bind_eq_some_iff.mp h
    obtain ⟨got, -, h⟩ := Option.bind_eq_some_iff.mp h
    refine ⟨_, .cells _ ?_ ?_, (Option.some.inj h).symm⟩
    · rw [unpackI32, List.length_map, List.length_range]
      exact hn
    · intro x hx
      obtain ⟨i, -, rfl⟩ := List.mem_map.mp hx
      exact natAbs_toInt_lt _
  · right
    refine ⟨by simp [isChannel, hkind], ?_⟩
    obtain ⟨data, n, hdata, hextent, hread⟩ := hsuits.readBack (by simp [hkind])
    have hn : n ≤ 256 := by
      have := hsize data hdata
      rcases hread with ⟨hbuffer, -, -⟩ | ⟨-, hlen, -⟩
      · rw [hkind] at hbuffer
        cases hbuffer
      · omega
    rw [readArg, hkind] at h
    simp only [hvalue, Option.bind_some, hextent, Option.bind_eq_bind] at h
    obtain ⟨ptr, -, h⟩ := Option.bind_eq_some_iff.mp h
    obtain ⟨got, hgot, h⟩ := Option.bind_eq_some_iff.mp h
    refine ⟨_, .bytes _ ?_, (Option.some.inj h).symm⟩
    rw [Core.load] at hgot
    split_ifs at hgot with hall
    rw [← Option.some.inj hgot, List.length_map, List.length_range]
    exact hn

/-- Reading back all of them. -/
theorem readArgs_left (hcase : CaseBounded params case) {mem mem' : Dict Value}
    (hnodup : (mem.keys ++ params.map Param.name).Nodup)
    (h : params.foldlM (readArg mapped case core ptrs) mem = some mem') :
    ∃ new, mem' = mem ++ new ∧ ReadMem params new := by
  induction params generalizing mem with
  | nil => exact ⟨[], by rw [List.append_nil]; exact (Option.some.inj h).symm, .nil⟩
  | cons p params ih =>
      obtain ⟨⟨value, hvalue, hsuits, hsize⟩, hcase⟩ := List.forall_mem_cons.mp hcase
      rw [List.foldlM_cons] at h
      obtain ⟨mem₁, hstep, hfold⟩ := Option.bind_eq_some_iff.mp h
      rw [List.map_cons] at hnodup
      rcases readArg_left hvalue hsuits hsize hstep with ⟨hno, rfl⟩ | ⟨hyes, item, hitem, rfl⟩
      · have hrest : (mem₁.keys ++ params.map Param.name).Nodup :=
          hnodup.sublist (List.Sublist.append_left (List.sublist_cons_self _ _) _)
        obtain ⟨new, hnew, hread⟩ := ih hcase hrest hfold
        refine ⟨new, hnew, ?_⟩
        rwa [ReadMem, List.filter_cons_of_neg (by simp [hno])]
      · -- no name is set twice, so each item goes to the end
        have hfresh : p.name ∉ mem.keys := fun hin =>
          (List.disjoint_of_nodup_append hnodup) hin List.mem_cons_self
        have hset := Dict.set_of_not_mem hfresh item
        have hkeys : (mem.set p.name item).keys = mem.keys ++ [p.name] := by
          rw [hset]
          simp [Dict.keys]
        obtain ⟨new, hnew, hread⟩ := ih hcase (by rwa [hkeys, List.append_assoc]) hfold
        refine ⟨(p.name, item) :: new, ?_, ?_⟩
        · rw [hnew, hset, List.append_assoc]
          rfl
        · rw [ReadMem, List.filter_cons_of_pos hyes]
          exact .cons ⟨rfl, hitem⟩ hread

/-- **What a call leaves.** -/
theorem callOriginal_left {Os : Type} {em : Emulator Os} {program : Program} {addr : ℕ}
    (hps : Accepted params) (hcase : CaseBounded params case)
    (hshort : ∀ vm e, (run em.system program.code sentinel em.budget vm).2 = some e →
      e.text.length < 2 ^ 63) {t : CallTrace}
    (h : callOriginal em program addr params case = some t) : Left params t := by
  rw [callOriginal] at h
  split_ifs at h with harity
  obtain ⟨r, hr, rfl⟩ := Option.map_eq_some_iff.mp h
  obtain ⟨entered, henter, hr⟩ := Option.bind_eq_some_iff.mp hr
  obtain ⟨t, hleave, hr⟩ := Option.bind_eq_some_iff.mp hr
  obtain rfl := Option.some.inj hr
  dsimp only at hleave ⊢
  rcases hstop : (run em.system program.code sentinel em.budget entered.1).2 with - | e
  · rw [hstop, leave] at hleave
    split_ifs at hleave with hrip
    · rw [← Option.some.inj hleave]
      exact .timeout
    · obtain ⟨mem, hmem, rfl⟩ := Option.map_eq_some_iff.mp hleave
      obtain ⟨new, hnew, hread⟩ := readArgs_left hcase (by simpa [Dict.keys] using hps.nodup) hmem
      rw [List.nil_append] at hnew
      exact .returned _ _ (natAbs_toInt_lt _) (hnew ▸ hread)
  · rw [hstop] at hleave
    rw [← Option.some.inj hleave]
    exact .raised e (hshort _ e hstop)

end Left

/-! ### Two calls -/

section Alike

variable {F : Type} [Runtime F] {params : List Param}

theorem pyEqList_map {α : Type} {f : α → Json F} (hf : ∀ a b, pyEq (f a) (f b) = true ↔ a = b)
    {as bs : List α} : pyEqList (as.map f) (bs.map f) = true ↔ as = bs := by
  induction as generalizing bs with
  | nil => cases bs <;> simp [pyEqList]
  | cons a as ih => cases bs <;> simp [pyEqList, hf, ih]

theorem pyEq_callEvent (e f : CallEvent) : pyEq (e.toJson : Json F) f.toJson = true ↔ e = f := by
  obtain ⟨sc, args, memFault⟩ := e
  obtain ⟨sc', args', memFault'⟩ := f
  have hargs : pyEq (strs args : Json F) (strs args') = true ↔ args = args' := by
    rw [strs, strs, pyEq]
    exact pyEqList_map fun s t => by rw [pyEq, beq_iff_eq]
  rcases memFault with - | b <;> rcases memFault' with - | b' <;>
    simp [CallEvent.toJson, pyEq, pyEqDict, List.lookup_cons, hargs]

theorem pyEq_fields {a b : CallTrace} (ha : a.batchMode = none) (hb : b.batchMode = none) :
    pyEq (a.hexed : Json F) b.hexed = true ↔ a.ret = b.ret ∧
      pyEq (.obj (wire a.mem) : Json F) (.obj (wire b.mem)) = true ∧ a.exitCode = b.exitCode ∧
        a.events = b.events := by
  have hevents : pyEqList (a.events.map (CallEvent.toJson (F := F)))
      (b.events.map CallEvent.toJson) = true ↔ a.events = b.events :=
    pyEqList_map pyEq_callEvent
  simp [CallTrace.hexed, ha, hb, pyEq, pyEqDict, List.lookup_cons, hevents]

theorem pyEq_item {kind : Kind} {v w : Value} (hv : ReadItem kind v) (hw : ReadItem kind w) :
    pyEq (v.wire : Json F) w.wire = true ↔ v = w := by
  cases hv with
  | cells xs =>
      cases hw with
      | cells ys =>
          rw [Value.cells.injEq]
          exact pyEq_cells
  | bytes b =>
      cases hw with
      | bytes c =>
          rw [Value.bytes.injEq]
          show pyEq (.str (hex b)) (.str (hex c)) = true ↔ _
          rw [pyEq, beq_iff_eq]
          exact hex_injective.eq_iff

theorem pyEq_mem (hps : Accepted params) {m m' : Dict Value} (hm : ReadMem params m)
    (hm' : ReadMem params m') :
    pyEq (.obj (wire m) : Json F) (.obj (wire m')) = true ↔ m = m' := by
  have hkeys : m.keys = m'.keys := by rw [hm.keys, hm'.keys]
  have hnodup : m.keys.Nodup := by
    rw [hm.keys]
    exact hps.nodup.sublist (List.Sublist.map _ (List.filter_sublist))
  -- one parameter stands behind a name
  have hitems : ∀ {k v w}, m.lookup k = some v → m'.lookup k = some w →
      (pyEq (v.wire : Json F) w.wire = true ↔ v = w) := by
    intro k v w hv hw
    obtain ⟨p, hp, hname, hitem⟩ := related_left hm (Dict.mem_of_lookup_eq_some hv)
    obtain ⟨q, hq, hname', hitem'⟩ := related_left hm' (Dict.mem_of_lookup_eq_some hw)
    have hpq : p = q := List.inj_on_of_nodup_map hps.nodup (List.mem_of_mem_filter hp)
      (List.mem_of_mem_filter hq) (hname.symm.trans hname')
    exact pyEq_item hitem (hpq ▸ hitem')
  have hlength : (wire m : Dict (Json F)).length = (wire m' : Dict (Json F)).length := by
    have := congrArg List.length hkeys
    simpa [wire, Dict.keys] using this
  rw [pyEq, beq_iff_eq.mpr hlength, Bool.true_and, pyEqDict_iff]
  constructor
  · intro h
    apply Dict.eq_of_lookup hnodup hkeys
    intro k hk
    obtain ⟨v, hv⟩ := Dict.exists_lookup hk
    obtain ⟨w, hw⟩ := Dict.exists_lookup (hkeys ▸ hk)
    obtain ⟨x, hx, heq⟩ := h (k, v.wire)
      (List.mem_map.mpr ⟨(k, v), Dict.mem_of_lookup_eq_some hv, rfl⟩)
    obtain rfl := Option.some.inj ((lookup_wire hw).symm.trans hx)
    rw [hv, hw, (hitems hv hw).mp heq]
  · rintro rfl e' he'
    obtain ⟨e, he, rfl⟩ := List.mem_map.mp he'
    have hlookup := Dict.lookup_eq_some_of_mem hnodup he
    exact ⟨e.2.wire, lookup_wire hlookup, (hitems hlookup hlookup).mpr rfl⟩

/-- **Two calls look alike just when they left the same.** -/
theorem pyEq_hexed (hps : Accepted params) {a b : CallTrace} (ha : Left params a)
    (hb : Left params b) : pyEq (a.hexed : Json F) b.hexed = true ↔ a = b := by
  have hplain : ∀ {t : CallTrace}, Left params t → t.batchMode = none := by
    intro t ht
    cases ht <;> rfl
  have hsc : py "crash" ≠ py "timeout" := by decide
  rw [pyEq_fields (hplain ha) (hplain hb)]
  constructor
  · -- the three ends of a call are told apart by their events
    rintro ⟨hret, hmem, hcode, hevents⟩
    cases ha with
    | raised e _ =>
        cases hb with
        | raised e' _ =>
            show (⟨0, [], -1, (raisedTrace e).events, none⟩ : CallTrace) = _
            rw [hevents]
            rfl
        | timeout => exact absurd (congrArg CallEvent.sc (List.cons.inj hevents).1) hsc
        | returned => cases hevents
    | timeout =>
        cases hb with
        | raised e' _ => exact absurd (congrArg CallEvent.sc (List.cons.inj hevents).1).symm hsc
        | timeout => rfl
        | returned => cases hevents
    | returned ret mem _ hread =>
        cases hb with
        | raised => cases hevents
        | timeout => cases hevents
        | returned ret' mem' _ hread' =>
            dsimp only at hret hmem
            rw [hret, (pyEq_mem hps hread hread').mp hmem]
  · rintro rfl
    refine ⟨rfl, ?_, rfl, rfl⟩
    cases ha with
    | raised => rfl
    | timeout => rfl
    | returned _ mem _ hread => exact (pyEq_mem hps hread hread).mpr rfl

end Alike

/-! ### What is shown -/

section Sizes

variable {F : Type} [Runtime F] {params : List Param}

theorem length_item_le {kind : Kind} {v : Value} (h : ReadItem kind v) (lvl : ℕ) :
    (render plain lvl (v.wire : Json F)).length ≤ 6146 := by
  -- sixty-four cells of at most ten digits, or the hexadecimal text of 256 bytes
  cases h with
  | cells xs hlen hsmall =>
      have hcell : ∀ x ∈ xs.map (Json.int (F := F)), 1 + plain.itemPad.length +
          (plain.newline (lvl + 1)).length + (render plain (lvl + 1) x).length ≤ 13 := by
        intro x hx
        obtain ⟨i, hi, rfl⟩ := List.mem_map.mp hx
        have hdigits := length_intText_le (k := 10) (by decide)
          ((hsmall i hi).trans (by decide : 2 ^ 33 < 10 ^ 10))
        rw [length_itemPad_plain, length_newline_plain, render]
        omega
      have hsum := sum_map_le hcell (n := 64) (by simpa using hlen)
      have hle := length_render_arr_le plain lvl (xs.map (Json.int (F := F)))
      rw [length_newline_plain lvl] at hle
      show (render plain lvl (cellsJson xs)).length ≤ _
      rw [cellsJson]
      omega
  | bytes b hlen =>
      have hquote := length_quote_le (hex b)
      rw [length_hex] at hquote
      show (render plain lvl (.str (hex b))).length ≤ _
      rw [render]
      omega

/-- **The trace of a call that came back is shown whole.** -/
theorem length_hexed (hps : Accepted params) (harity : params.length ≤ registerCount) {ret : ℤ}
    (hret : ret.natAbs < 2 ^ 33) {mem : Dict Value} (hmem : ReadMem params mem) :
    (dumps plain (CallTrace.hexed ⟨ret, mem, 0, [], none⟩ : Json F)).length ≤
      shownLimit - 1024 := by
  have hentry : ∀ e ∈ (wire mem : Dict (Json F)), entryRoom plain 2 e ≤ 6216 := by
    intro e' he'
    obtain ⟨e, he, rfl⟩ := List.mem_map.mp he'
    obtain ⟨p, hp, hname, hitem⟩ := related_left hmem he
    have hquote := length_quote_name (hps.names p (List.mem_of_mem_filter hp))
    have hvalue := length_item_le (F := F) hitem 2
    rw [entryRoom, length_itemPad_plain, length_keyPad_plain, length_newline_plain, hname]
    dsimp only
    omega
  -- an item for each parameter, of which there are as many as registers
  have hcount : (wire mem : Dict (Json F)).length ≤ 6 := by
    rw [wire, List.length_map, ← hmem.length_eq]
    exact (List.length_filter_le _ _).trans harity
  have hsum := sum_map_le hentry hcount
  have hobj : (render plain 1 (.obj (wire mem : Dict (Json F)))).length ≤
      2 + (plain.newline 1).length + ((wire mem : Dict (Json F)).map (entryRoom plain 2)).sum :=
    length_render_obj_le plain 1 _
  have hdigits := length_intText_le (k := 10) (by decide)
    (hret.trans (by decide : 2 ^ 33 < 10 ^ 10))
  have hquotes : ∀ k ∈ [py "ret", py "mem", py "exit_code", py "events"],
      (quote k).length ≤ 110 := by
    intro k hk
    have hshort := (by decide : ∀ k ∈ [py "ret", py "mem", py "exit_code", py "events"],
      k.length ≤ 9) k hk
    exact (length_quote_le k).trans (by omega)
  simp only [List.forall_mem_cons] at hquotes
  obtain ⟨h1, h2, h3, h4, -⟩ := hquotes
  have hzero : (intText 0).length = 1 := rfl
  have hnil : (py "[]").length = 2 := rfl
  have hlimit : shownLimit = 65536 := rfl
  rw [length_newline_plain] at hobj
  rw [CallTrace.hexed]
  refine (length_render_obj_le plain 0 _).trans ?_
  simp only [Option.map_none, Option.toList_none, List.append_nil, List.map_cons, List.map_nil,
    List.sum_cons, List.sum_nil, entryRoom, length_itemPad_plain, length_keyPad_plain,
    length_newline_plain, zero_add]
  rw [render, render, render]
  omega

/-- A trace without memory, of one event. -/
theorem length_fault_le {e : CallEvent} {n : ℕ} (hsc : e.sc.length ≤ 7)
    (hargs : (render indent2 3 (strs e.args : Json F)).length ≤ n) :
    (render indent2 0 (CallTrace.hexed ⟨0, [], -1, [e], none⟩ : Json F)).length ≤ n + 2000 := by
  have hquotes : ∀ k ∈ [py "ret", py "mem", py "exit_code", py "events", py "phase", py "sc",
      py "args", py "mem_fault", py "fault"], (quote k).length ≤ 110 := by
    intro k hk
    have hshort := (by decide : ∀ k ∈ [py "ret", py "mem", py "exit_code", py "events", py "phase",
      py "sc", py "args", py "mem_fault", py "fault"], k.length ≤ 9) k hk
    exact (length_quote_le k).trans (by omega)
  simp only [List.forall_mem_cons] at hquotes
  obtain ⟨h1, h2, h3, h4, h5, h6, h7, h8, h9, -⟩ := hquotes
  have hphase : (render indent2 3 (.str (py "fault") : Json F)).length ≤ 110 := h9
  have hquote : (render indent2 3 (.str e.sc : Json F)).length ≤ 86 :=
    (length_quote_le e.sc).trans (by omega)
  have hlevel : ∀ d : Dict (Json F), (render indent2 2 (.obj d)).length ≤
      2 + (indent2.newline 2).length + (d.map (entryRoom indent2 3)).sum :=
    length_render_obj_le indent2 2
  -- only the arguments of the event are not of a fixed length
  have hevent : (render indent2 2 (e.toJson : Json F)).length ≤ n + 1000 := by
    rw [CallEvent.toJson]
    refine (hlevel _).trans ?_
    rcases e.memFault with - | b
    · simp only [Option.map_none, Option.toList_none, List.append_nil, List.map_cons, List.map_nil,
        List.sum_cons, List.sum_nil, entryRoom, length_itemPad_indent2, length_keyPad_indent2,
        length_newline_indent2]
      omega
    · have hbool : (render indent2 3 (.bool b : Json F)).length ≤ 5 := by
        cases b
        · exact Nat.le_refl 5
        · exact Nat.le_succ 4
      simp only [Option.map_some, Option.toList_some, List.cons_append, List.nil_append,
        List.map_cons, List.map_nil, List.sum_cons, List.sum_nil, entryRoom, length_itemPad_indent2,
        length_keyPad_indent2, length_newline_indent2]
      omega
  have hlist : ∀ xs : List (Json F), (render indent2 1 (.arr xs)).length ≤
      2 + (indent2.newline 1).length + (xs.map fun x => 1 + indent2.itemPad.length +
        (indent2.newline 2).length + (render indent2 2 x).length).sum :=
    length_render_arr_le indent2 1
  have hevents := hlist [e.toJson]
  simp only [List.map_cons, List.map_nil, List.sum_cons, List.sum_nil, length_itemPad_indent2,
    length_newline_indent2] at hevents
  have hmem : (render indent2 1 (.obj (wire []) : Json F)).length = 2 := rfl
  have hret : (render indent2 1 (.int 0 : Json F)).length = 1 := rfl
  have hcode : (render indent2 1 (.int (-1) : Json F)).length = 2 := rfl
  rw [CallTrace.hexed]
  refine (length_render_obj_le indent2 0 _).trans ?_
  simp only [Option.map_none, Option.toList_none, List.append_nil, List.map_cons, List.map_nil,
    List.sum_cons, List.sum_nil, entryRoom, length_itemPad_indent2, length_keyPad_indent2,
    length_newline_indent2, zero_add]
  omega

/-- The messages of the traces without memory. -/
theorem length_message_le {s : PyStr} {n : ℕ} (h : s.length ≤ n) :
    (render indent2 3 (strs [s] : Json F)).length ≤ 12 * n + 100 := by
  have hquote := length_quote_le s
  have hle := length_render_arr_le indent2 3 [(.str s : Json F)]
  simp only [List.map_cons, List.map_nil, List.sum_cons, List.sum_nil, length_itemPad_indent2,
    length_newline_indent2] at hle
  rw [render] at hle
  show (render indent2 3 (.arr [.str s])).length ≤ _
  omega

/-- **A fault message is the only field without a bound**: it is all that is cut of the trace of a
call that raised. -/
theorem capped_raised {e : EmulatorError} (h : e.text.length < 2 ^ 63) :
    capped ((raisedTrace e).hexed : Json F) =
      some (raisedTrace { e with text := capText 4096 e.text }).hexed := by
  have hcap : cap 4096 ((raisedTrace e).hexed : Json F) =
      (raisedTrace { e with text := capText 4096 e.text }).hexed := by
    rfl
  have htext := length_capText_le (n := 4096) (k := 19) (by decide) (size_lt h)
  have hfit : Fitting (cap 4096 ((raisedTrace e).hexed : Json F)) := by
    have hargs := length_message_le (F := F) htext
    rw [hcap, Fitting, dumpsSorted, length_render_sortKeys, raisedTrace]
    refine (length_fault_le (show (py "crash").length ≤ 7 by decide) hargs).trans_lt ?_
    show 12 * (4096 + 19 + 12) + 100 + 2000 < feedbackLimit - 1024
    decide
  rw [capped, capLevels, List.findSome?_cons, if_pos hfit, hcap]

/-- What is shown of two calls. -/
theorem showCall_spec (hps : Accepted params) (harity : params.length ≤ registerCount)
    {a b : CallTrace} (ha : Left params a) (hb : Left params b) :
    ∃ r : CallShown F, showCall a b = some r ∧ r.probes = 1 ∧
      (dumps plain r.shown).length ≤ shownLimit ∧ (r.succeeded = true ↔ a = b) ∧
      (a = b → r.shown = a.hexed ∨ ∃ e, a = raisedTrace e ∧
        r.shown = (raisedTrace { e with text := capText 4096 e.text }).hexed) := by
  by_cases hab : a = b
  swap
  · have hne : pyEq (a.hexed : Json F) b.hexed = false :=
      Bool.eq_false_iff.mpr fun h => hab ((pyEq_hexed hps ha hb).mp h)
    refine ⟨callFailed 1 "flaky: two calls on this case differ", ?_, rfl, ?_, ?_,
      fun h => absurd h hab⟩
    · rw [showCall, hne]
      rfl
    · exact length_error_le (by decide)
    · exact iff_of_false Bool.false_ne_true hab
  have heq : pyEq (a.hexed : Json F) b.hexed = true := (pyEq_hexed hps ha hb).mpr hab
  by_cases hfit : (dumps plain (a.hexed : Json F)).length ≤ shownLimit - 1024
  · refine ⟨⟨true, 1, a.hexed⟩, ?_, rfl, hfit.trans (Nat.sub_le _ _), iff_of_true rfl hab,
      fun _ => .inl rfl⟩
    rw [showCall, if_pos heq, if_pos hfit]
  -- a trace that is too long is that of an exception
  cases ha with
  | raised e hshort =>
      have hcapped := capped_raised (F := F) hshort
      refine ⟨⟨true, 1, _⟩, ?_, rfl, capped_length hcapped, iff_of_true rfl hab,
        fun _ => .inr ⟨e, rfl, rfl⟩⟩
      rw [showCall, if_pos heq, if_neg hfit, hcapped]
      rfl
  | timeout =>
      refine absurd ?_ hfit
      have hargs : (render indent2 3 (strs [] : Json F)).length ≤ 2 := Nat.le_refl 2
      have hle := length_fault_le (e := ⟨py "timeout", [], none⟩) (by decide) hargs
      exact (length_plain_le _ 0 0).trans (hle.trans (by decide))
  | returned ret mem hret hmem => exact absurd (length_hexed hps harity hret hmem) hfit

end Sizes

/-! ### The whole operation -/

/-- A host for the calls of a program: the stack is aligned and has room for six longest arguments,
what is mapped stays mapped, and the texts of its exceptions are those of a 64-bit host. -/
structure Emulator.Roomy {Os : Type} (em : Emulator Os) (program : Program) : Prop where
  aligned : em.stackAddress % 16 = 0
  stack : StackMapped (em.system.mapped (em.boot program).os) em.stackAddress
    (registerCount * maxArg + 8)
  kept : ∀ core x, em.system.mapped (em.boot program).os x = true → em.system.mapped
    (run em.system program.code sentinel em.budget ⟨core, (em.boot program).os⟩).1.os x = true
  short : ∀ vm e, (run em.system program.code sentinel em.budget vm).2 = some e →
    e.text.length < 2 ^ 63

/-- A call with a case that was checked comes to its end. -/
theorem callOriginal_roomy {Os : Type} {em : Emulator Os} {program : Program}
    (hem : em.Roomy program) {params : List Param} (hps : Accepted params)
    (harity : params.length ≤ registerCount) {case : Case} (hcase : CaseBounded params case)
    (addr : ℕ) :
    ∃ t, callOriginal em program addr params case = some t ∧ Left params t := by
  obtain ⟨args, hargs⟩ := hcase.suits.marshals
  have hstack := hem.stack.mono (hcase.stackUse_le hargs harity)
  obtain ⟨regvals, core, ptrs, hsetUp, hlayout, hptrs⟩ :=
    setUp_layout hem.aligned harity hargs hstack addr (em.boot program).core
  have henter : enter em addr params case (em.boot program) =
      some ({ em.boot program with core := core }, ptrs) := by
    rw [enter, hsetUp, Option.map_some]
  have hsome := callOriginal_isSome hcase.suits harity hstack henter hlayout hptrs
    (hem.kept core)
  obtain ⟨t, ht⟩ := Option.isSome_iff_exists.mp hsome
  exact ⟨t, ht, callOriginal_left hps hcase hem.short ht⟩

/-- A batch of cases without system calls has the trace of the single call for each of them. -/
theorem batched_call {Os : Type} {em : Emulator Os} {program : Program} {addr : ℕ}
    {params : List Param} {cases : List Case} {case : Case} {outs : List CallTrace}
    (harity : params.length ≤ registerCount)
    (houts : batchCallOriginalOn em program addr params cases = some outs) (hmem : case ∈ cases)
    (hscreen : fnHasSyscall program addr ≠ none)
    (hfree : ∀ c ∈ cases, SyscallFree em program addr params c) :
    ∃ out ∈ outs, callOriginal em program addr params case = some out.plain := by
  have hruns := batch_plain (by omega) hscreen fun _ c hc =>
    hfree c (List.dropLast_subset cases hc)
  rw [houts, Option.map_some] at hruns
  obtain ⟨o, ho, hcall⟩ := related_right (mapM_some.mp hruns.symm) hmem
  obtain ⟨out, hout, rfl⟩ := List.mem_map.mp ho
  exact ⟨out, hout, hcall⟩

/-- **What `experiment_function` shows.**  Let `parse` return arguments, in a task for a function at
an address.  On roomy hosts both calls come to their ends, and the operation has a result, that
costs a probe and fits the limit.  It succeeds just when the calls left the same, and then shows
that: whole, but for the text of an exception, of which it may show the first 4096 characters.  A
batch with the case in it has the same trace for it, if the batch has no system calls. -/
theorem function_shown {F : Type} [Runtime F] {lim : Limits F} {arguments a : Json F}
    (hparse : parse lim arguments = .ok a) {task : Bytes} {fn : Json F}
    (htask : experimentTarget F task = some (some fn)) {addr : ℕ}
    (haddr : fn.get? (py "addr") = some (.int addr)) {Os : Type} {em em' : Emulator Os}
    {program : Program} (hem : em.Roomy program) (hem' : em'.Roomy program) :
    ∃ params case t t' r, executeArgs lim a = some (params, case) ∧
      callOriginal em program addr params case = some t ∧
      callOriginal em' program addr params case = some t' ∧
      executeFunction lim em em' program task a = some r ∧ r.probes = 1 ∧
      (dumps plain r.shown).length ≤ shownLimit ∧ (r.succeeded = true ↔ t = t') ∧
      (t = t' → r.shown = t.hexed ∨ ∃ e, t = raisedTrace e ∧
        r.shown = (raisedTrace { e with text := capText 4096 e.text }).hexed) ∧
      ∀ cases outs, batchCallOriginalOn em program addr params cases = some outs →
        case ∈ cases → fnHasSyscall program addr ≠ none →
        (∀ c ∈ cases, SyscallFree em program addr params c) → ∃ out ∈ outs, out.plain = t := by
  rcases parse_cases lim arguments with ⟨e, he, -⟩ | ⟨params, d, hok, hps, harity, hd⟩
  · rw [he] at hparse
    cases hparse
  obtain rfl := Except.ok.inj (hok.symm.trans hparse)
  obtain ⟨case, hargs, hcase⟩ := executeArgs_argumentsOf lim hps (caseOf_ok.mp hd).2.2
  have hcase : CaseBounded params case := hcase
  obtain ⟨t, ht, hleft⟩ := callOriginal_roomy hem hps harity hcase addr
  obtain ⟨t', ht', hleft'⟩ := callOriginal_roomy hem' hps harity hcase addr
  obtain ⟨r, hr, hprobes, hfit, hsucceeded, hshown⟩ := showCall_spec (F := F) hps harity hleft hleft'
  refine ⟨params, case, t, t', r, hargs, ht, ht', ?_, hprobes, hfit, hsucceeded, hshown, ?_⟩
  · simp only [executeFunction, htask, hargs, haddr, Json.int?, ht, ht', hr, Int.toNat_natCast,
      Option.bind_eq_bind, Option.bind_some]
  · intro cases outs houts hmem hscreen hfree
    obtain ⟨out, hout, hcall⟩ := batched_call harity houts hmem hscreen hfree
    exact ⟨out, hout, Option.some.inj (hcall.symm.trans ht)⟩

/-! ### A function that only returns -/

/-- The case of a string and a buffer, in the canonical form. -/
def copyArguments : Json ZeroFloat := argumentsOf copyParams
  [(py "s", .str (hex [0x61, 0])), (py "out", .int 2), (py "n", .int 2)]

theorem accepted_copyParams : Accepted copyParams where
  names := by decide
  nodup := by decide
  range := by decide
  lengths := by decide
  sizing := by decide

theorem parse_copyArguments : parse unlimited copyArguments = .ok copyArguments :=
  parse_argumentsOf unlimited accepted_copyParams (by decide) rfl

/-- The private file of its task. -/
def returnTask : Json ZeroFloat :=
  .obj [(py "function", .obj [(py "addr", .int 0x401000)])]

theorem experimentTarget_returnTask :
    experimentTarget ZeroFloat (encode (dumps plain returnTask)) =
      some (some (.obj [(py "addr", .int 0x401000)])) := by
  have hdepth := LawfulRuntime.maxDepth_le (F := ZeroFloat)
  have hfits : returnTask.Fits (Runtime.maxDepth ZeroFloat) :=
    ⟨by omega, ⟨by omega, natAbs_lt_digits (by decide), trivial⟩, trivial⟩
  have hclean : returnTask.Clean :=
    ⟨List.nodup_singleton _, ⟨joinPairs_py (by decide), List.nodup_singleton _,
      ⟨joinPairs_py (by decide), trivial⟩, trivial⟩, trivial⟩
  rw [experimentTarget, loads_dumps plain_blank hfits hclean]
  rfl

theorem roomy_flat : flatEmulator.Roomy returnProgram where
  aligned := by decide
  stack := ⟨by decide, by decide, fun _ _ _ => rfl⟩
  kept := fun _ _ _ => rfl
  short := by
    intro vm e h
    refine run_raised (P := fun e => e.text.length < 2 ^ 63) ?_ ?_ h
    · intro _ _
      show (py "Invalid memory").length < 2 ^ 63
      decide
    · intro p hp vm vm' e hstep
      obtain rfl := List.mem_singleton.mp hp
      have hload : ∀ core : Core, (core.load (fun _ => true) (vm.core.regs .rsp) 8).isSome := by
        intro core
        rw [Core.load, if_pos (by simp)]
        rfl
      obtain ⟨bs, hbs⟩ := Option.isSome_iff_exists.mp (hload vm.core)
      simp only [execute, retInsn, flatEmulator, hbs] at hstep
      cases hstep

/-- The trace of the call: the string, and the buffer of zeros. -/
def copyTrace : CallTrace :=
  ⟨0, [(py "s", .bytes [0x61, 0]), (py "out", .cells [0, 0])], 0, [], none⟩

theorem callOriginal_copy :
    callOriginal flatEmulator returnProgram 0x401000 copyParams copyCase = some copyTrace := rfl

theorem syscallFree_return (params : List Param) (case : Case) :
    SyscallFree flatEmulator returnProgram 0x401000 params case := by
  apply syscallFree_of_code
  simp [returnProgram, retInsn]

theorem function_shown_copy :
    ∃ r, executeFunction unlimited flatEmulator flatEmulator returnProgram
        (encode (dumps plain returnTask)) copyArguments = some r ∧
      r.probes = 1 ∧ (dumps plain r.shown).length ≤ shownLimit ∧ r.succeeded = true ∧
      r.shown = copyTrace.hexed ∧
      ∃ outs, batchCallOriginalOn flatEmulator returnProgram 0x401000 copyParams
        [copyCase, copyCase] = some outs ∧ ∃ out ∈ outs, out.plain = copyTrace := by
  obtain ⟨params, case, t, t', r, hargs, ht, ht', hr, hprobes, hfit, hsucceeded, hshown, hbatch⟩ :=
    function_shown parse_copyArguments experimentTarget_returnTask
      (show _ = some (Json.int ((0x401000 : ℕ) : ℤ)) from rfl) roomy_flat roomy_flat
  have hsame : executeArgs unlimited copyArguments = some (copyParams, copyCase) := rfl
  obtain ⟨rfl, rfl⟩ := Prod.mk.inj (Option.some.inj (hargs.symm.trans hsame))
  obtain rfl := Option.some.inj (ht.symm.trans callOriginal_copy)
  obtain rfl := Option.some.inj (ht'.symm.trans callOriginal_copy)
  have hwhole : r.shown = copyTrace.hexed := by
    rcases hshown rfl with hwhole | ⟨e, he, -⟩
    · exact hwhole
    · -- the call did not raise
      have hcode : (0 : ℤ) = -1 := congrArg CallTrace.exitCode he
      exact absurd hcode (by decide)
  have hscreen : fnHasSyscall returnProgram 0x401000 ≠ none := by decide
  have hruns : (batchCallOriginalOn flatEmulator returnProgram 0x401000 copyParams
      [copyCase, copyCase]).map (List.map CallTrace.plain) =
        [copyCase, copyCase].mapM (callOriginal flatEmulator returnProgram 0x401000 copyParams) :=
    batch_plain (by decide) hscreen fun _ c _ => syscallFree_return copyParams c
  have hcalls : [copyCase, copyCase].mapM
      (callOriginal flatEmulator returnProgram 0x401000 copyParams) =
        some [copyTrace, copyTrace] := by
    simp only [List.mapM_cons, List.mapM_nil, callOriginal_copy]
    rfl
  rw [hcalls] at hruns
  obtain ⟨outs, houts, -⟩ := Option.map_eq_some_iff.mp hruns
  refine ⟨r, hr, hprobes, hfit, hsucceeded.mpr rfl, hwhole, outs, houts, ?_⟩
  exact hbatch _ outs houts List.mem_cons_self hscreen fun c _ => syscallFree_return copyParams c

end ReSchema
