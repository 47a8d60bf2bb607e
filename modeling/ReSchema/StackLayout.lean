/-
ReSchema/StackLayout.lean

Where the arguments of a call lie (`_run_case` of `driver/calling.py`).

The regions of the arguments are taken downwards from the stack top, in pieces
of 16 bytes, and the return trap goes right below the lowest of them.  The
invariant of the loop (`Placed`) has the regions in descending order between the
lowest address so far and the stack top, each with the bytes of its argument.

  * `placeArg_placed`, `placeArgs_placed`:  one argument, and all of them;
  * `unpackI32_pack`:                       what is packed is what is unpacked;
  * `stack_layout`:                         the layout of a call, and the readback.
-/
import ReSchema.BatchedOriginals
import ReSchema.Marshalling
import ReSchema.X86.Region

namespace ReSchema

open Py X86

/-! ### Cells -/

/-- The cell of four bytes. -/
def cellOf (bs : List UInt8) : ℤ :=
  (BitVec.ofNat 32 (bs.foldr (fun b k => b.toNat + 256 * k) 0)).toInt

theorem unpackI32_succ (data : List UInt8) (n : ℕ) :
    unpackI32 data (n + 1) = cellOf (data.take 4) :: unpackI32 (data.drop 4) n := by
  rw [unpackI32, List.range_succ_eq_map, List.map_cons, List.map_map]
  refine congrArg₂ List.cons rfl (List.map_congr_left fun i _ => ?_)
  show cellOf _ = cellOf _
  rw [List.drop_drop]
  congr 3
  omega

theorem cellOf_littleEndian {raw : ℕ} (h : raw < 2 ^ 32) :
    cellOf (littleEndian raw) = (BitVec.ofNat 32 raw).toInt := by
  have hsum : (littleEndian raw).foldr (fun b k => b.toNat + 256 * k) 0 = raw := by
    simp only [littleEndian, List.foldr_cons, List.foldr_nil, UInt8.toNat_ofNat']
    omega
  rw [cellOf, hsum]

/-- What is packed is what is unpacked. -/
theorem cellOf_packI32 {x : ℤ} {bs : Bytes} (h : packI32 x = some bs) :
    bs.length = 4 ∧ cellOf bs = x := by
  unfold packI32 at h
  split_ifs at h with hrange
  cases h
  have hbits : BitVec.ofNat 32 (x % 2 ^ 32).toNat = BitVec.ofInt 32 x := by
    apply BitVec.eq_of_toNat_eq
    rw [BitVec.toNat_ofNat, BitVec.toNat_ofInt]
    omega
  refine ⟨rfl, ?_⟩
  rw [cellOf_littleEndian (by omega), hbits, BitVec.toInt_ofInt]
  apply Int.bmod_eq_of_le
  · omega
  · omega

theorem unpackI32_pack {xs : List ℤ} {bss : List Bytes} (h : xs.mapM packI32 = some bss) :
    unpackI32 bss.flatten xs.length = xs ∧ bss.flatten.length = 4 * xs.length := by
  rw [mapM_some] at h
  induction h with
  | nil => exact ⟨rfl, rfl⟩
  | @cons x bs xs bss hx _ ih =>
      obtain ⟨hlen, hcell⟩ := cellOf_packI32 hx
      obtain ⟨hrest, hsum⟩ := ih
      constructor
      · rw [List.flatten_cons, List.length_cons, unpackI32_succ, ← hlen, List.take_left,
          List.drop_left, hcell, hrest]
      · rw [List.flatten_cons, List.length_append, hlen, hsum, List.length_cons]
        omega

/-- Zeros are unpacked as zeros. -/
theorem unpackI32_zeros (n : ℕ) :
    unpackI32 (List.replicate (4 * n) 0) n = List.replicate n 0 := by
  induction n with
  | zero => rfl
  | succ n ih =>
      have htake : (List.replicate (4 * (n + 1)) (0 : UInt8)).take 4 = List.replicate 4 0 := by
        rw [List.take_replicate, Nat.min_eq_left (by omega)]
      have hdrop : (List.replicate (4 * (n + 1)) (0 : UInt8)).drop 4 = List.replicate (4 * n) 0 := by
        rw [List.drop_replicate]
        rfl
      rw [unpackI32_succ, htake, hdrop, ih]
      rfl

/-! ### Arguments -/

/-- The value suits the kind.  A number stands for an output buffer of that many cells. -/
inductive Suits : Kind → Value → Prop
  | scalar (i : ℤ) : Suits .i32 (.int i)
  | string (b : Bytes) : Suits .cstring (.bytes b)
  | cells (xs : List ℤ) (int32 : ∀ x ∈ xs, -(2 ^ 31) ≤ x ∧ x < 2 ^ 31) :
      Suits .bufferI32 (.cells xs)
  | output (n : ℕ) : Suits .bufferI32 (.int n)

/-- The case has a value that suits for every parameter. -/
def CaseSuits (params : List Param) (case : Case) : Prop :=
  ∀ p ∈ params, ∃ v, case.lookup p.name = some v ∧ Suits p.kind v

/-- What stands in memory for a value, as it is read back. -/
def Value.stored : Value → Value
  | .int n => .cells (List.replicate n.toNat 0)
  | v => v

/-- The bytes that an argument takes up. -/
def Arg.room : Arg → ℕ
  | .scalar _ => 0
  | .pointer data => (data.length + 15) / 16 * 16

/-- The room that a call takes up on the stack: its arguments and the return trap. -/
def stackUse (args : List Arg) : ℕ := (args.map Arg.room).sum + 8

/-- The region of an argument, given the value of its register. -/
def argRegion : Arg × ℤ → Option Region
  | (.scalar _, _) => none
  | (.pointer data, a) => some ⟨a, data⟩

/-- The regions of a call. -/
def regionsOf (args : List Arg) (regvals : List ℤ) : List Region :=
  (args.zip regvals).filterMap argRegion

theorem regionsOf_append {args : List Arg} {regvals : List ℤ} (h : regvals.length = args.length)
    (arg : Arg) (v : ℤ) :
    regionsOf (args ++ [arg]) (regvals ++ [v]) =
      regionsOf args regvals ++ (argRegion (arg, v)).toList := by
  rw [regionsOf, List.zip_append h.symm, List.filterMap_append]
  refine congrArg _ ?_
  rw [List.zip_cons_cons, List.zip_nil_left, List.filterMap_cons]
  cases argRegion (arg, v) <;> rfl

/-- An argument that is a pointer takes up at least its bytes. -/
theorem le_room (data : Bytes) : data.length ≤ (Arg.pointer data).room := by
  rw [Arg.room]
  omega

theorem room_mod (arg : Arg) : arg.room % 16 = 0 := by
  cases arg with
  | scalar i => rfl
  | pointer data => exact Nat.mul_mod_left _ _

theorem rooms_mod (args : List Arg) : (args.map Arg.room).sum % 16 = 0 := by
  induction args with
  | nil => rfl
  | cons arg args ih =>
      rw [List.map_cons, List.sum_cons, Nat.add_mod, room_mod, ih]

/-- A value that suits gets marshalled. -/
theorem Suits.marshals {kind : Kind} {v : Value} (h : Suits kind v) :
    ∃ arg, marshal kind v = some arg := by
  cases h with
  | scalar i => exact ⟨_, rfl⟩
  | string b => exact ⟨_, rfl⟩
  | cells xs int32 => exact Option.isSome_iff_exists.mp (marshal_cells.mpr int32)
  | output n => exact ⟨_, rfl⟩

/-- The bytes of a value do not depend on the kind. -/
theorem marshal_unique {kind kind' : Kind} {v : Value} {data data' : Bytes}
    (h : marshal kind v = some (.pointer data)) (h' : marshal kind' v = some (.pointer data')) :
    data = data' := by
  have hkind : kind = kind' := by
    cases v <;> cases kind <;> cases kind' <;> simp [marshal] at h h' ⊢
  subst hkind
  exact Arg.pointer.inj (Option.some.inj (h.symm.trans h'))

/-- How much is read back for a value, and what that is as long as nothing was written. -/
theorem Suits.readBack {kind : Kind} {v : Value} (h : Suits kind v) (hkind : kind ≠ .i32) :
    ∃ data n, marshal kind v = some (.pointer data) ∧ extent v = some n ∧
      ((kind = .bufferI32 ∧ data.length = 4 * n ∧ .cells (unpackI32 data n) = v.stored) ∨
        (kind = .cstring ∧ data.length = n ∧ .bytes data = v.stored)) := by
  cases h with
  | scalar i => exact absurd rfl hkind
  | string b => exact ⟨b, b.length, rfl, rfl, .inr ⟨rfl, rfl, rfl⟩⟩
  | cells xs int32 =>
      obtain ⟨arg, harg⟩ := Option.isSome_iff_exists.mp (marshal_cells.mpr int32)
      obtain ⟨bss, hbss, rfl⟩ := Option.map_eq_some_iff.mp harg
      obtain ⟨hunpack, hlength⟩ := unpackI32_pack hbss
      exact ⟨bss.flatten, xs.length, harg, rfl, .inl ⟨rfl, hlength, congrArg Value.cells hunpack⟩⟩
  | output n =>
      refine ⟨_, n, rfl, ?_, .inl ⟨rfl, List.length_replicate, ?_⟩⟩
      · rw [extent, if_pos (Int.natCast_nonneg n), Int.toNat_natCast]
      · exact congrArg Value.cells (unpackI32_zeros n)

/-! ### Placing the arguments -/

/-- The stack below its top is mapped, for so many bytes. -/
structure StackMapped (mapped : U64 → Bool) (sp : ℤ) (n : ℕ) : Prop where
  bottom : n ≤ sp
  top : sp ≤ 2 ^ 64
  mapped : MappedIn mapped (sp - n) sp

theorem StackMapped.mono {mapped : U64 → Bool} {sp : ℤ} {m n : ℕ} (h : StackMapped mapped sp n)
    (hle : m ≤ n) : StackMapped mapped sp m := by
  have hbottom := h.bottom
  exact ⟨by omega, h.top, h.mapped.mono (by omega) (le_refl sp)⟩

/-- The arguments of the parameters so far are in their places. -/
structure Placed (sp : ℤ) (case : Case) (params : List Param) (args : List Arg) (s : CallFrame) :
    Prop where
  values : List.Forall₂ (fun arg v => ∀ i, arg = Arg.scalar i → v = i) args s.regvals
  top : s.top = sp - (args.map Arg.room).sum
  descending : (regionsOf args s.regvals).Pairwise fun r r' => r'.stop ≤ r.start
  inside : ∀ r ∈ regionsOf args s.regvals, s.top ≤ r.start ∧ r.stop ≤ sp
  holds : ∀ r ∈ regionsOf args s.regvals, s.core.Holds r
  ptrs : ∀ p ∈ params, ∀ data, (case.lookup p.name).bind (marshal p.kind) = some (.pointer data) →
    ∃ a, s.ptrs.lookup p.name = some a ∧ ⟨a, data⟩ ∈ regionsOf args s.regvals

section Place

variable {mapped : U64 → Bool} {sp : ℤ} {n : ℕ} {case : Case} {params : List Param}
  {args : List Arg} {s : CallFrame}

theorem Placed.start (core : Core) (sp : ℤ) (case : Case) :
    Placed sp case [] [] ⟨core, sp, [], []⟩ where
  values := .nil
  top := by simp
  descending := .nil
  inside := fun _ h => absurd h List.not_mem_nil
  holds := fun _ h => absurd h List.not_mem_nil
  ptrs := fun _ h => absurd h List.not_mem_nil

/-- The step: the next argument gets its place below the others. -/
theorem placeArg_placed (hstack : StackMapped mapped sp n) (h : Placed sp case params args s)
    {p : Param} {arg : Arg} (harg : (case.lookup p.name).bind (marshal p.kind) = some arg)
    (hroom : ((args ++ [arg]).map Arg.room).sum ≤ n) :
    ∃ s', placeArg mapped case s p = some s' ∧ Placed sp case (params ++ [p]) (args ++ [arg]) s' := by
  rw [List.map_append, List.sum_append, List.map_cons, List.map_nil, List.sum_singleton] at hroom
  have harity := h.values.length_eq.symm
  have htop := h.top
  have hbottom := hstack.bottom
  cases arg with
  | scalar i =>
      have hregions : regionsOf (args ++ [.scalar i]) (s.regvals ++ [i]) =
          regionsOf args s.regvals := by
        rw [regionsOf_append harity]
        exact List.append_nil _
      refine ⟨{ s with regvals := s.regvals ++ [i] }, by rw [placeArg, harg]; rfl, ?_⟩
      constructor
      · apply List.rel_append h.values
        exact .cons (fun j hj => Arg.scalar.inj hj) .nil
      · show s.top = _
        rw [htop]
        simp [Arg.room]
      · rw [hregions]
        exact h.descending
      · rw [hregions]
        exact h.inside
      · rw [hregions]
        exact h.holds
      · rw [hregions]
        intro q hq data hdata
        rcases List.mem_append.mp hq with hq | hq
        · exact h.ptrs q hq data hdata
        · rw [List.mem_singleton.mp hq, harg] at hdata
          cases hdata
  | pointer data =>
      set top := s.top - (Arg.pointer data).room with htop'
      have hlength := le_room data
      have hfits : Region.Fits ⟨top, data⟩ := by
        constructor
        · show 0 ≤ top
          omega
        · show top + data.length ≤ 2 ^ 64
          have := hstack.top
          omega
      have hmapped : MappedIn mapped top (top + data.length) := by
        apply hstack.mapped.mono
        · omega
        · omega
      obtain ⟨core, hstore, -, hself, hother⟩ :=
        store_holds s.core (r := ⟨top, data⟩) hmapped hfits
      have hregions : regionsOf (args ++ [.pointer data]) (s.regvals ++ [top]) =
          regionsOf args s.regvals ++ [⟨top, data⟩] := regionsOf_append harity _ _
      refine ⟨⟨core, top, s.regvals ++ [top], s.ptrs.set p.name top⟩, ?_, ?_⟩
      · have htop0 : ¬ top < 0 := by omega
        rw [placeArg, harg, Option.bind_some]
        show (if top < 0 then none else (s.core.store mapped (BitVec.ofInt 64 top) data).map _) = _
        rw [if_neg htop0, hstore]
        rfl
      constructor
      · apply List.rel_append h.values
        exact .cons (fun j hj => by cases hj) .nil
      · show top = _
        rw [htop', htop, List.map_append, List.sum_append, List.map_cons, List.map_nil,
          List.sum_singleton]
        omega
      · rw [hregions, List.pairwise_append]
        refine ⟨h.descending, List.pairwise_singleton _ _, fun r hr r' hr' => ?_⟩
        rw [List.mem_singleton.mp hr']
        have := (h.inside r hr).1
        show top + data.length ≤ r.start
        omega
      · rw [hregions]
        intro r hr
        show top ≤ r.start ∧ r.stop ≤ sp
        rcases List.mem_append.mp hr with hr | hr
        · have hin := h.inside r hr
          exact ⟨by omega, hin.2⟩
        · rw [List.mem_singleton.mp hr]
          refine ⟨le_refl top, ?_⟩
          show top + data.length ≤ sp
          omega
      · rw [hregions]
        intro r hr
        rcases List.mem_append.mp hr with hr | hr
        · -- the regions so far lie above the new one
          have hin := h.inside r hr
          have hsp := hstack.top
          apply hother r ⟨by omega, by omega⟩
          · right
            show top + data.length ≤ r.start
            omega
          · exact h.holds r hr
        · rw [List.mem_singleton.mp hr]
          exact hself
      · rw [hregions]
        intro q hq data' hdata'
        show ∃ a, (s.ptrs.set p.name top).lookup q.name = some a ∧ _
        by_cases hname : q.name = p.name
        · -- a parameter of the same name has the same value
          refine ⟨top, by rw [hname, Dict.lookup_set_self], List.mem_append_right _ ?_⟩
          rw [hname] at hdata'
          obtain ⟨v, hv, hp⟩ := Option.bind_eq_some_iff.mp harg
          obtain ⟨v', hv', hq'⟩ := Option.bind_eq_some_iff.mp hdata'
          rw [hv, Option.some.injEq] at hv'
          subst hv'
          rw [marshal_unique hq' hp]
          exact List.mem_singleton_self _
        · rcases List.mem_append.mp hq with hq | hq
          · obtain ⟨a, ha, hmem⟩ := h.ptrs q hq data' hdata'
            refine ⟨a, ?_, List.mem_append_left _ hmem⟩
            rw [Dict.lookup_set_of_ne _ _ hname, ha]
          · exact absurd (congrArg Param.name (List.mem_singleton.mp hq)) hname

/-- The run: all the arguments get their places. -/
theorem placeArgs_placed (hstack : StackMapped mapped sp n) (h : Placed sp case params args s)
    {rest : List Param} {more : List Arg} (hmore : marshalCase rest case = some more)
    (hroom : ((args ++ more).map Arg.room).sum ≤ n) :
    ∃ s', rest.foldlM (placeArg mapped case) s = some s' ∧
      Placed sp case (params ++ rest) (args ++ more) s' := by
  have hrel := mapM_some.mp hmore
  clear hmore
  induction hrel generalizing params args s with
  | nil => exact ⟨s, rfl, by rwa [List.append_nil, List.append_nil]⟩
  | @cons p arg rest more harg _ ih =>
      have hassoc : args ++ arg :: more = (args ++ [arg]) ++ more := List.append_cons args arg more
      rw [hassoc] at hroom
      have hroom' : ((args ++ [arg]).map Arg.room).sum ≤ n := by
        rw [List.map_append, List.sum_append] at hroom
        omega
      obtain ⟨s', hstep, hs'⟩ := placeArg_placed hstack h harg hroom'
      obtain ⟨s'', hrest, hs''⟩ := ih hs' hroom
      refine ⟨s'', ?_, ?_⟩
      · rw [List.foldlM_cons, hstep]
        exact hrest
      · rwa [List.append_cons params, hassoc]

end Place

/-! ### Registers -/

/-- The loop that sets the registers. -/
def setRegs (c : Core) (l : List (Reg × ℤ)) : Core :=
  l.foldl (fun (c : Core) (r : Reg × ℤ) => c.set r.1 (BitVec.ofInt 64 r.2)) c

theorem setRegs_mem (c : Core) (l : List (Reg × ℤ)) : (setRegs c l).mem = c.mem := by
  induction l generalizing c with
  | nil => rfl
  | cons r l ih => exact ih (c.set r.1 (BitVec.ofInt 64 r.2))

theorem setRegs_of_not_mem {c : Core} {l : List (Reg × ℤ)} {reg : Reg}
    (h : reg ∉ l.map Prod.fst) : (setRegs c l).regs reg = c.regs reg := by
  induction l generalizing c with
  | nil => rfl
  | cons r l ih =>
      obtain ⟨hne, hrest⟩ := List.ne_and_not_mem_of_not_mem_cons h
      show (setRegs (c.set r.1 (BitVec.ofInt 64 r.2)) l).regs reg = c.regs reg
      rw [ih hrest, Core.set_of_ne _ _ hne]

/-- Each register has its value, as long as none is set twice. -/
theorem setRegs_of_mem {c : Core} {regs : List Reg} {vs : List ℤ} (hnodup : regs.Nodup) {reg : Reg}
    {v : ℤ} (h : (reg, v) ∈ regs.zip vs) :
    (setRegs c (regs.zip vs)).regs reg = BitVec.ofInt 64 v := by
  induction regs generalizing c vs with
  | nil => exact absurd h List.not_mem_nil
  | cons r regs ih =>
      rcases vs with - | ⟨w, vs⟩
      · exact absurd h List.not_mem_nil
      obtain ⟨hr, hnodup⟩ := List.nodup_cons.mp hnodup
      show (setRegs (c.set r (BitVec.ofInt 64 w)) (regs.zip vs)).regs reg = BitVec.ofInt 64 v
      rcases List.mem_cons.mp h with heq | h
      · cases heq
        have hnot : reg ∉ (regs.zip vs).map Prod.fst := by
          intro hmem
          obtain ⟨p, hp, rfl⟩ := List.mem_map.mp hmem
          exact hr (List.of_mem_zip hp).1
        rw [setRegs_of_not_mem hnot, Core.set_self]
      · exact ih hnodup h

/-! ### The layout -/

/-- The layout of a call at its entry. -/
structure CallLayout (sp : ℤ) (args : List Arg) (regvals : List ℤ) (core : Core) : Prop where
  /-- Every argument has its register, and a scalar is there itself. -/
  values : List.Forall₂ (fun arg v => ∀ i, arg = Arg.scalar i → v = i) args regvals
  registers : ∀ (i : ℕ) (v : ℤ), regvals[i]? = some v →
    ∃ reg, bareRegs[i]? = some reg ∧ core.regs reg = BitVec.ofInt 64 v
  disjoint : (regionsOf args regvals).Pairwise fun r r' => Disjoint r.addresses r'.addresses
  /-- The stack pointer is at the end of the room that the call takes up. -/
  bottom : ((core.regs .rsp).toNat : ℤ) = sp - stackUse args
  /-- The regions lie between the slot of the return address and the stack top. -/
  inside : ∀ r ∈ regionsOf args regvals, (core.regs .rsp).toNat + 8 ≤ r.start ∧ r.stop ≤ sp
  /-- The regions hold the bytes of the arguments. -/
  holds : ∀ r ∈ regionsOf args regvals, core.Holds r
  aligned : (core.regs .rsp).toNat % 16 = 8
  trap : core.Holds ⟨(core.regs .rsp).toNat, wordBytes sentinel⟩

section Layout

variable {mapped : U64 → Bool} {sp : ℤ} {case : Case} {params : List Param} {args : List Arg}

/-- The steps after the arguments are placed. -/
theorem setUp_of_placed {core : Core} {s : CallFrame}
    (hfold : params.foldlM (placeArg mapped case) ⟨core, sp, [], []⟩ = some s)
    (htop : s.top % 16 = 0) (addr : ℕ) :
    setUp mapped sp addr params case core =
      (((setRegs s.core (bareRegs.zip s.regvals)).set .rsp (BitVec.ofInt 64 (s.top - 8))).store
        mapped (BitVec.ofInt 64 (s.top - 8)) (wordBytes sentinel)).map fun core =>
          (core.set .rip (BitVec.ofNat 64 addr), s.ptrs) := by
  have hrsp : s.top - (s.top - 8) % 16 = s.top - 8 := by omega
  rw [setUp, hfold]
  simp only [Option.bind_eq_bind, Option.bind_some, hrsp, Option.map_eq_bind]
  rfl

theorem setUp_layout (hsp : sp % 16 = 0) (hsix : params.length ≤ registerCount)
    (hargs : marshalCase params case = some args)
    (hstack : StackMapped mapped sp (stackUse args)) (addr : ℕ) (core : Core) :
    ∃ regvals entered ptrs, setUp mapped sp addr params case core = some (entered, ptrs) ∧
      CallLayout sp args regvals entered ∧
      ∀ p ∈ params, ∀ data, (case.lookup p.name).bind (marshal p.kind) = some (.pointer data) →
        ∃ a, ptrs.lookup p.name = some a ∧ ⟨a, data⟩ ∈ regionsOf args regvals := by
  obtain ⟨s, hfold, hplaced⟩ := placeArgs_placed hstack (.start core sp case) hargs
    (by rw [List.nil_append, stackUse]; omega)
  rw [List.nil_append, List.nil_append] at hplaced
  have hrooms := rooms_mod args
  have htop := hplaced.top
  have hbottom := hstack.bottom
  have hhigh := hstack.top
  rw [stackUse] at hbottom
  -- the slot of the return address
  have hnat : (BitVec.ofInt 64 (s.top - 8)).toNat = s.top - 8 := by
    rw [BitVec.toNat_ofInt]
    omega
  set ready := (setRegs s.core (bareRegs.zip s.regvals)).set .rsp (BitVec.ofInt 64 (s.top - 8))
    with hready
  obtain ⟨trapped, hstore, hkept, htrap, hother⟩ := store_holds ready
    (r := ⟨s.top - 8, wordBytes sentinel⟩)
    (hstack.mapped.mono (by rw [stackUse]; show _ ≤ s.top - 8; omega)
      (by show s.top - 8 + ((8 : ℕ) : ℤ) ≤ sp; omega))
    ⟨by show 0 ≤ s.top - 8; omega, by show s.top - 8 + ((8 : ℕ) : ℤ) ≤ 2 ^ 64; omega⟩
  set entered := trapped.set .rip (BitVec.ofNat 64 addr) with hentered
  have hmem : entered.regs .rsp = BitVec.ofInt 64 (s.top - 8) := by
    rw [hentered, Core.set_of_ne _ _ (by decide), hkept, hready, Core.set_self]
  refine ⟨s.regvals, entered, s.ptrs, ?_, ?_, hplaced.ptrs⟩
  · rw [setUp_of_placed hfold (by omega), hstore]
    rfl
  constructor
  · exact hplaced.values
  · intro i v hv
    have hlength : args.length = params.length :=
      (List.Forall₂.length_eq (mapM_some.mp hargs)).symm
    have hi : i < bareRegs.length := by
      have := (List.getElem?_eq_some_iff.mp hv).1
      rw [← hplaced.values.length_eq, hlength] at this
      exact this.trans_le hsix
    have hzip : (bareRegs[i], v) ∈ bareRegs.zip s.regvals := by
      apply List.mem_of_getElem? (i := i)
      exact List.getElem?_zip_eq_some.mpr ⟨List.getElem?_eq_getElem hi, hv⟩
    have hothers : ∀ reg ∈ bareRegs, reg ≠ .rsp ∧ reg ≠ .rip := by decide
    obtain ⟨hsp', hrip⟩ := hothers _ (List.getElem_mem hi)
    refine ⟨bareRegs[i], List.getElem?_eq_getElem hi, ?_⟩
    rw [hentered, Core.set_of_ne _ _ hrip, hkept, hready, Core.set_of_ne _ _ hsp']
    exact setRegs_of_mem (by decide) hzip
  · -- in descending order, hence disjoint
    exact hplaced.descending.imp fun hle => Region.Beside.disjoint (.inr hle)
  · rw [hmem, hnat, htop, stackUse]
    omega
  · intro r hr
    rw [hmem, hnat]
    have := hplaced.inside r hr
    exact ⟨by omega, this.2⟩
  · intro r hr
    have hin := hplaced.inside r hr
    have hheld : ready.Holds r := (hplaced.holds r hr).of_mem_eq (setRegs_mem s.core _)
    apply Core.Holds.of_mem_eq (c := trapped) _ rfl
    apply hother r ⟨by omega, by omega⟩ _ hheld
    right
    show s.top - 8 + ((8 : ℕ) : ℤ) ≤ r.start
    omega
  · rw [hmem]
    omega
  · rw [hmem, hnat]
    exact htrap.of_mem_eq rfl

/-- The regions stay mapped as long as the stack does. -/
theorem CallLayout.regions_mapped {regvals : List ℤ} {core : Core}
    (h : CallLayout sp args regvals core) (hstack : StackMapped mapped sp (stackUse args))
    {mapped' : U64 → Bool} (hkept : ∀ a, mapped a = true → mapped' a = true) :
    ∀ r ∈ regionsOf args regvals, MappedIn mapped' r.start r.stop := by
  intro r hr a hlo hhi
  have hin := h.inside r hr
  have hbottom := h.bottom
  exact hkept _ (hstack.mapped a (by omega) (by omega))

end Layout

/-! ### Reading back -/

section ReadBack

variable {mapped : U64 → Bool} {case : Case} {ptrs : Dict ℤ}

/-- Reading back one argument: whatever is there, and the argument itself as long as nothing was
written. -/
theorem readArg_region (core : Core) {p : Param} {v : Value} (hv : case.lookup p.name = some v)
    (hsuits : Suits p.kind v) (hkind : p.kind ≠ .i32) {a : ℤ} {data : Bytes}
    (hptr : ptrs.lookup p.name = some a) (hdata : marshal p.kind v = some (.pointer data))
    (hmapped : MappedIn mapped a (a + data.length)) (mem : Dict Value) :
    ∃ w, readArg mapped case core ptrs mem p = some (mem.set p.name w) ∧
      (core.Holds ⟨a, data⟩ → w = v.stored) := by
  obtain ⟨data', n, hdata', hextent, hread⟩ := hsuits.readBack hkind
  obtain rfl : data = data' := marshal_unique hdata hdata'
  have hload : ∃ bytes, core.load mapped (BitVec.ofInt 64 a) data.length = some bytes ∧
      (core.Holds ⟨a, data⟩ → bytes = data) := ⟨_, load_of_mapped core hmapped, map_mem_of_holds⟩
  obtain ⟨bytes, hload, hheld⟩ := hload
  rcases hread with ⟨hk, hlength, hstored⟩ | ⟨hk, hlength, hstored⟩
  · -- a buffer
    rw [hlength] at hload
    refine ⟨.cells (unpackI32 bytes n), ?_, fun h => by rw [hheld h, hstored]⟩
    rw [readArg, hk]
    simp only [hv, hptr, hextent, hload, Option.bind_eq_bind, Option.bind_some]
    rfl
  · -- a string
    rw [hlength] at hload
    refine ⟨.bytes bytes, ?_, fun h => by rw [hheld h, hstored]⟩
    rw [readArg, hk]
    simp only [hv, hptr, hextent, hload, Option.bind_eq_bind, Option.bind_some]
    rfl

/-- The memory read back for some parameters is what was stored for them. -/
def ReadsStored (case : Case) (params : List Param) (mem : Dict Value) : Prop :=
  ∀ p ∈ params, p.kind ≠ .i32 → ∀ v, case.lookup p.name = some v →
    mem.lookup p.name = some v.stored

/-- One more parameter; another one of its name has the same value. -/
theorem ReadsStored.set {done : List Param} {mem : Dict Value} (h : ReadsStored case done mem)
    {p : Param} {v : Value} (hv : case.lookup p.name = some v) :
    ReadsStored case (done ++ [p]) (mem.set p.name v.stored) := by
  intro q hq hkind u hu
  by_cases hname : q.name = p.name
  · rw [hname, hv, Option.some.injEq] at hu
    rw [hname, Dict.lookup_set_self, hu]
  · rcases List.mem_append.mp hq with hq | hq
    · rw [Dict.lookup_set_of_ne _ _ hname]
      exact h q hq hkind u hu
    · exact absurd (congrArg Param.name (List.mem_singleton.mp hq)) hname

/-- Reading back all of them. -/
theorem readArgs_regions (core : Core) {params : List Param} (hcase : CaseSuits params case)
    {regions : List Region} (hmapped : ∀ r ∈ regions, MappedIn mapped r.start r.stop)
    (hptrs : ∀ p ∈ params, ∀ data,
      (case.lookup p.name).bind (marshal p.kind) = some (.pointer data) →
        ∃ a, ptrs.lookup p.name = some a ∧ ⟨a, data⟩ ∈ regions) (done : List Param)
    (mem : Dict Value) :
    ∃ mem', params.foldlM (readArg mapped case core ptrs) mem = some mem' ∧
      ((∀ r ∈ regions, core.Holds r) → ReadsStored case done mem →
        ReadsStored case (done ++ params) mem') := by
  induction params generalizing done mem with
  | nil => exact ⟨mem, rfl, fun _ h => by rwa [List.append_nil]⟩
  | cons p params ih =>
      obtain ⟨⟨v, hv, hsuits⟩, hcase⟩ := List.forall_mem_cons.mp hcase
      obtain ⟨hptr, hptrs⟩ := List.forall_mem_cons.mp hptrs
      -- a scalar is passed over, and everything else has its own region
      have hstep : ∃ mem₁, readArg mapped case core ptrs mem p = some mem₁ ∧
          ((∀ r ∈ regions, core.Holds r) → ReadsStored case done mem →
            ReadsStored case (done ++ [p]) mem₁) := by
        by_cases hkind : p.kind = .i32
        · refine ⟨mem, by rw [readArg, hkind], fun _ h q hq hq' => ?_⟩
          rcases List.mem_append.mp hq with hq | hq
          · exact h q hq hq'
          · exact absurd (List.mem_singleton.mp hq ▸ hkind) hq'
        · obtain ⟨data, n, hdata, -⟩ := hsuits.readBack hkind
          obtain ⟨a, ha, hmem⟩ := hptr data (by rw [hv]; exact hdata)
          obtain ⟨w, hread, hw⟩ := readArg_region core hv hsuits hkind ha hdata
            (hmapped _ hmem) mem
          refine ⟨_, hread, fun hholds h => ?_⟩
          rw [hw (hholds _ hmem)]
          exact h.set hv
      obtain ⟨mem₁, hread, h₁⟩ := hstep
      obtain ⟨mem', hrest, h'⟩ := ih hcase hptrs (done ++ [p]) mem₁
      refine ⟨mem', ?_, fun hholds h => ?_⟩
      · rw [List.foldlM_cons, hread]
        exact hrest
      · rw [List.append_cons]
        exact h' hholds (h₁ hholds h)

end ReadBack

/-! ### A call -/

/-- The mapped stack that a call needs: the room of its arguments and of the return trap. -/
def callRoom (params : List Param) (case : Case) : ℕ :=
  stackUse ((marshalCase params case).getD [])

theorem CaseSuits.marshals {params : List Param} {case : Case} (h : CaseSuits params case) :
    ∃ args, marshalCase params case = some args := by
  apply Option.isSome_iff_exists.mp
  rw [marshalCase_isSome]
  intro p hp
  obtain ⟨v, hv, hsuits⟩ := h p hp
  obtain ⟨arg, harg⟩ := hsuits.marshals
  rw [hv, Option.bind_some, harg]
  rfl

/-- **Stack layout.**  A case that suits at most six parameters, on an aligned stack with enough
room that is mapped, is laid out in disjoint regions between the return address and the stack top.
A function that comes back to the trap with the memory as it was, and with all of it mapped still,
leaves a trace that has every buffer and string as it was stored. -/
theorem stack_layout {Os : Type} (em : Emulator Os) (program : Program) (addr : ℕ)
    {params : List Param} {case : Case} (vm : Vm Os) (hsp : em.stackAddress % 16 = 0)
    (hsix : params.length ≤ registerCount) (hcase : CaseSuits params case)
    (hstack : StackMapped (em.system.mapped vm.os) em.stackAddress (callRoom params case)) :
    ∃ args regvals entered ptrs, marshalCase params case = some args ∧
      enter em addr params case vm = some (entered, ptrs) ∧
      CallLayout em.stackAddress args regvals entered.core ∧
      ∀ vm', run em.system program.code sentinel em.budget entered = (vm', none) →
        vm'.core.regs .rip = sentinel → vm'.core.mem = entered.core.mem →
        (∀ a, em.system.mapped vm.os a = true → em.system.mapped vm'.os a = true) →
        ∃ trace, runCaseOn em program addr params case vm = some (trace, vm') ∧
          trace.exitCode = 0 ∧ trace.events = [] ∧ ReadsStored case params trace.mem := by
  obtain ⟨args, hargs⟩ := hcase.marshals
  rw [callRoom, hargs, Option.getD_some] at hstack
  obtain ⟨regvals, core, ptrs, hsetUp, hlayout, hptrs⟩ :=
    setUp_layout hsp hsix hargs hstack addr vm.core
  have henter : enter em addr params case vm = some ({ vm with core := core }, ptrs) := by
    rw [enter, hsetUp, Option.map_some]
  refine ⟨args, regvals, { vm with core := core }, ptrs, hargs, henter, hlayout, ?_⟩
  -- a return to the trap: the regions are mapped and hold what was written
  intro vm' hrun hrip hmem hmapped
  have hregions : ∀ r ∈ regionsOf args regvals,
      MappedIn (em.system.mapped vm'.os) r.start r.stop := hlayout.regions_mapped hstack hmapped
  obtain ⟨mem, hread, hstored⟩ := readArgs_regions vm'.core hcase hregions hptrs [] []
  refine ⟨⟨((vm'.core.regs .rax).setWidth 32).toInt, mem, 0, [], none⟩, ?_, rfl, rfl, ?_⟩
  · rw [runCaseOn, henter]
    simp only [Option.bind_eq_bind, Option.bind_some, hrun, leave, hrip, hread]
    simp
  · apply hstored
    · exact fun r hr => (hlayout.holds r hr).of_mem_eq hmem
    · exact fun p hp => absurd hp List.not_mem_nil

/-- An emulator with the whole memory mapped. -/
def flatEmulator : Emulator Unit where
  system := ⟨fun _ _ => true, fun vm => (vm, .go), fun _ _ => ⟨py "Invalid memory", true⟩⟩
  boot _ := ⟨⟨fun _ => 0, fun _ => 0⟩, ()⟩
  stackAddress := 0x7fff0000
  budget := 100

/-- A string, an output buffer and its length. -/
def copyParams : List Param :=
  [⟨py "s", .cstring, none, -100, 100, .i32⟩, ⟨py "out", .bufferI32, some (py "n"), -100, 100, .i32⟩,
    ⟨py "n", .i32, none, 0, 8, .i32⟩]

def copyCase : Case := [(py "s", .bytes [0x61, 0]), (py "out", .int 2), (py "n", .int 2)]

theorem copyCase_suits : CaseSuits copyParams copyCase := by
  refine List.forall_mem_cons.mpr ⟨⟨_, rfl, .string _⟩, ?_⟩
  refine List.forall_mem_cons.mpr ⟨⟨_, rfl, .output 2⟩, ?_⟩
  exact List.forall_mem_cons.mpr ⟨⟨_, rfl, .scalar 2⟩, fun _ h => absurd h List.not_mem_nil⟩

/-- Where a call starts. -/
theorem enter_core {Os : Type} {em : Emulator Os} {addr : ℕ} {params : List Param} {case : Case}
    {vm entered : Vm Os} {ptrs : Dict ℤ} (h : enter em addr params case vm = some (entered, ptrs)) :
    entered.core.regs .rip = BitVec.ofNat 64 addr ∧ entered.os = vm.os := by
  obtain ⟨⟨core, ptrs'⟩, hsetUp, hentered⟩ := Option.map_eq_some_iff.mp h
  obtain ⟨rfl, rfl⟩ := Prod.mk.inj hentered
  refine ⟨?_, rfl⟩
  -- the last step of the set-up is to enter the function
  simp only [setUp, Option.bind_eq_bind, Option.bind_eq_some_iff] at hsetUp
  obtain ⟨s, -, stored, -, hcore⟩ := hsetUp
  obtain ⟨rfl, -⟩ := Prod.mk.inj (Option.some.inj hcore)
  exact Core.set_self ..

/-- A function that only returns comes back to the trap, with the memory as it was. -/
theorem return_run {vm : Vm Unit} (hrip : vm.core.regs .rip = 0x401000)
    (htrap : vm.core.Holds ⟨(vm.core.regs .rsp).toNat, wordBytes sentinel⟩) :
    ∃ vm', run flatEmulator.system returnProgram.code sentinel flatEmulator.budget vm = (vm', none) ∧
      vm'.core.regs .rip = sentinel ∧ vm'.core.mem = vm.core.mem := by
  have hload : vm.core.load (flatEmulator.system.mapped vm.os) (vm.core.regs .rsp) 8 =
      some (wordBytes sentinel) := by
    have hmapped : MappedIn (flatEmulator.system.mapped vm.os) (vm.core.regs .rsp).toNat
        ((vm.core.regs .rsp).toNat + (8 : ℕ)) := fun _ _ _ => rfl
    have hload := load_of_mapped vm.core hmapped
    have hheld := map_mem_of_holds htrap
    rw [BitVec.ofInt_natCast, BitVec.ofNat_toNat, BitVec.setWidth_eq] at hload
    rw [hload]
    exact congrArg some hheld
  have hback : bytesWord (wordBytes sentinel) = sentinel := by decide +kernel
  set back : Vm Unit := ⟨(vm.core.set .rsp (vm.core.regs .rsp + 8)).set .rip sentinel, vm.os⟩
  have hstep : execute flatEmulator.system vm retInsn = .next back := by
    simp only [execute, retInsn, hload, hback]
    rfl
  have hstop : back.core.regs .rip = sentinel := Core.set_self ..
  have hcode : returnProgram.code.lookup (vm.core.regs .rip).toNat = some retInsn := by
    rw [hrip]
    rfl
  refine ⟨back, ?_, hstop, rfl⟩
  rw [show flatEmulator.budget = 98 + 1 + 1 from rfl, run, if_neg (by rw [hrip]; decide)]
  simp only [hcode, hstep]
  rw [run, if_pos hstop]

theorem stack_layout_copy :
    ∃ args regvals entered ptrs trace vm', marshalCase copyParams copyCase = some args ∧
      enter flatEmulator 0x401000 copyParams copyCase (flatEmulator.boot returnProgram) =
        some (entered, ptrs) ∧
      CallLayout 0x7fff0000 args regvals entered.core ∧
      runCaseOn flatEmulator returnProgram 0x401000 copyParams copyCase
        (flatEmulator.boot returnProgram) = some (trace, vm') ∧
      trace.exitCode = 0 ∧ trace.events = [] ∧ ReadsStored copyCase copyParams trace.mem := by
  obtain ⟨args, regvals, entered, ptrs, hargs, henter, hlayout, hback⟩ :=
    stack_layout flatEmulator returnProgram 0x401000 (flatEmulator.boot returnProgram) (by decide)
      (by decide) copyCase_suits ⟨by decide +kernel, by decide, fun _ _ _ => rfl⟩
  obtain ⟨vm', hrun, hrip, hmem⟩ := return_run (enter_core henter).1 hlayout.trap
  obtain ⟨trace, htrace, hread⟩ := hback vm' hrun hrip hmem fun _ _ => rfl
  exact ⟨args, regvals, entered, ptrs, trace, vm', hargs, henter, hlayout, htrace, hread⟩

end ReSchema
