import Ia32.Proofs.Flags
import Ia32.Proofs.Footprint

/-!
# Instructions change only what they name

* `Mnemonic.writesDestination`, `Mnemonic.writesHalves`, `Mnemonic.pushes`, `Mnemonic.flags`: what
  the name of an instruction says of its effect;
* `Instr.IsIdle`: a shift by no places; `Instr.Jumps`: an instruction that moves control;
* `Instr.ChangesRegister`, `Instr.ChangesByte`, **`Instr.footprint`**: the places that an
  instruction may change;
* `Action.mov_stays`, …, `Action.ret_stays`: each group of instructions stays within what it is said
  to change; **`Action.perform_within`**: so does every instruction;
* **`execute_within`**: an instruction that is decoded and executed changes only these places.
-/

set_option autoImplicit false

namespace Ia32

/-! ## Names of instructions -/

/-- The flags that tell of a result. -/
def Flag.arithmetic : List Flag := [carry, parity, auxiliary, zero, sign, overflow]

namespace Mnemonic

/-- Whether the instruction gives its last operand a value. -/
def writesDestination : Mnemonic → Bool
  | mov | lea | pop | inc | dec | shift _ => true
  | alu op => op != .cmp
  | unary op => op == .not || op == .neg
  | _ => false

/-- Whether the result of the instruction goes to the accumulator and the register beside it. -/
def writesHalves : Mnemonic → Bool
  | unary .mul | unary .imul | unary .div | unary .idiv => true
  | _ => false

/-- Whether the instruction puts values on the stack. -/
def pushes : Mnemonic → Bool
  | push | call | plain .pushf | plain .pusha => true
  | _ => false

theorem usesStack_of_pushes {m : Mnemonic} (h : m.pushes = true) : m.usesStack = true := by
  unfold pushes at h
  split at h <;> first | rfl | cases h

/-- The flags that the instruction may change. -/
def flags : Mnemonic → List Flag
  | alu _ | test | unary .neg => Flag.arithmetic
  | inc | dec => Flag.arithmetic.erase .carry
  | unary .mul | unary .imul => [.carry, .overflow]
  | shift op =>
    if Alu.shiftSetsResult op then Flag.arithmetic.erase .auxiliary else [.carry, .overflow]
  | plain .popf => Flag.all
  | plain .stc | plain .clc | plain .cmc => [.carry]
  | plain .std | plain .cld => [.direction]
  | plain .sti | plain .cli => [.interrupt]
  | plain .sahf => [.carry, .parity, .auxiliary, .zero, .sign]
  | _ => []

end Mnemonic

/-! ## Places that an instruction changes -/

namespace Instr

/-- The instruction shifts by a count that is zero modulo 32. -/
def IsIdle (i : Instr) (m : Machine) : Prop :=
  i.mnemonic.isShift = true ∧ i.operands.length ≠ 1 ∧
    ∃ src count, i.source? = some src ∧ m.readOperand src .byte = .ok count ∧ count.toNat % 32 = 0

/-- The instruction moves control. -/
def Jumps (i : Instr) (m : Machine) : Prop :=
  match i.mnemonic with
  | .jmp | .call | .plain .ret => True
  | .jcc c => c.holds m.flags = true
  | _ => False

/-- The machine in which the address of a destination is found: `pop` has moved the stack pointer
by then. -/
def atWrite (i : Instr) (m : Machine) : Machine :=
  if i.mnemonic = .pop then m.raised i.width else m

/-- The registers that an instruction may change, by the part that a name shows. -/
inductive ChangesRegister (i : Instr) : Reg → Prop where
  | destination {r : Reg} (hi : i.mnemonic.writesDestination = true)
      (hd : i.destination? = some (.reg r)) : ChangesRegister i r
  | esp (hi : i.mnemonic.usesStack = true) : ChangesRegister i .esp
  | low (hi : i.mnemonic.writesHalves = true) : ChangesRegister i (Action.halves i.width).1
  | high (hi : i.mnemonic.writesHalves = true) : ChangesRegister i (Action.halves i.width).2
  | popa (hi : i.mnemonic = .plain .popa) {c : BitVec 3} (hc : c ≠ Reg.esp.code) :
      ChangesRegister i ⟨i.width, c⟩
  | lahf (hi : i.mnemonic = .plain .lahf) : ChangesRegister i .ah

/-- The bytes of memory that an instruction may change, when it leaves the machine `m'`. The
destination of `lea` is never in memory. -/
inductive ChangesByte (i : Instr) (m m' : Machine) (a : Nat) : Prop where
  | destination {ref : MemRef} (hi : i.mnemonic.writesDestination = true)
      (hlea : i.mnemonic ≠ .lea) (hd : i.destination? = some (.mem ref))
      (ha : a ∈ (i.atWrite m).operandBytes ref i.width)
  | pushed (hi : i.mnemonic.pushes = true) (h0 : (m'.get .esp).toNat ≤ a)
      (h1 : a < (m.get .esp).toNat)

/-- **The places that an instruction may change**, when it leaves the machine `m'`. -/
def footprint (i : Instr) (m m' : Machine) : Footprint where
  registers := {r | i.ChangesRegister r}
  memory := {a | i.ChangesByte m m' a}
  flags := {flag | flag ∈ i.mnemonic.flags ∧ ¬ i.IsIdle m}
  eip := i.Jumps m

variable {i : Instr} {m m' : Machine}

theorem destination_footprint_le (hi : i.mnemonic.writesDestination = true)
    (hlea : i.mnemonic = .lea → ∀ ref, i.destination? ≠ some (.mem ref)) {dst : Operand}
    (hd : i.destination? = some dst) :
    dst.footprint (i.atWrite m) i.width ≤ i.footprint m m' := by
  refine ⟨?_, ?_, ?_, ?_⟩
  · cases dst with
    | reg r =>
      rintro _ rfl
      exact .destination hi hd
    | _ => exact Set.empty_subset _
  · cases dst with
    | mem ref => exact fun a ha => .destination hi (fun hi => hlea hi ref hd) hd ha
    | _ => exact Set.empty_subset _
  · cases dst <;> exact Set.empty_subset _
  · cases dst <;> exact False.elim

theorem pushed_le_footprint (hi : i.mnemonic.pushes = true) :
    m.pushed m' ≤ i.footprint m m' :=
  Machine.pushed_le (.esp (Mnemonic.usesStack_of_pushes hi)) fun _ ha => .pushed hi ha.1 ha.2

theorem mem_footprint_flags {flag : Flag} (hflag : flag ∈ i.mnemonic.flags)
    (hi : i.mnemonic.isShift = false) : flag ∈ (i.footprint m m').flags :=
  ⟨hflag, fun h => by simp [h.1] at hi⟩

theorem source?_of_ok {op : Operand} (h : i.source m = .ok op m') : i.source? = some op := by
  cases hs : i.source? with
  | some op' =>
    rw [source_eq hs] at h
    cases h
    rfl
  | none =>
    rw [source, hs] at h
    cases h

theorem destination?_of_ok {op : Operand} (h : i.destination m = .ok op m') :
    i.destination? = some op := by
  cases hd : i.destination? with
  | some op' =>
    rw [destination_eq hd] at h
    cases h
    rfl
  | none =>
    rw [destination, hd] at h
    cases h

end Instr

/-! ## Flags that an operation sets -/

namespace FlagUpdate

theorem mem_arithmetic {u : FlagUpdate} {flag : Flag} (h : u.value? flag ≠ none) :
    flag ∈ Flag.arithmetic := by
  cases flag <;> first | decide | exact absurd rfl h

theorem value?_complement (a : Long) (w : Width) (flag : Flag) :
    (Action.complement a w).2.value? flag = none := by
  cases flag <;> rfl

theorem mem_inc {a : Long} {w : Width} {flag : Flag} (h : (Alu.inc a w).2.value? flag ≠ none) :
    flag ∈ Mnemonic.inc.flags := by
  cases flag <;> first | decide | exact absurd rfl h

theorem mem_dec {a : Long} {w : Width} {flag : Flag} (h : (Alu.dec a w).2.value? flag ≠ none) :
    flag ∈ Mnemonic.dec.flags := by
  cases flag <;> first | decide | exact absurd rfl h

theorem mem_shift {op : ShiftOp} {a : Long} {count : Nat} {carry : Bool} {w : Width} {flag : Flag}
    (h : (Alu.shift op a count carry w).2.value? flag ≠ none) :
    count ≠ 0 ∧ flag ∈ (Mnemonic.shift op).flags := by
  unfold Alu.shift at h
  split at h
  · cases flag <;> exact absurd rfl h
  · next hcount =>
    refine ⟨hcount, ?_⟩
    cases op <;> cases flag <;> first | decide | exact absurd rfl h

end FlagUpdate

namespace Action

open Machine

variable {F : Footprint} {i : Instr} {m m' : Machine}

/-! ## Groups of instructions -/

theorem staysWithin_write_update {dst : Operand} {w : Width} {v : Long} {u : FlagUpdate}
    (hd : dst.footprint m w ≤ F) (hf : ∀ flag, u.value? flag ≠ none → flag ∈ F.flags) :
    StaysWithin F m (do write dst w v; update u) :=
  (staysWithin_write hd).bind fun _ _ _ => staysWithin_update hf

section Destination

variable (hd : ∀ dst, i.destination? = some dst → dst.footprint m i.width ≤ F)

include hd

theorem mov_stays : StaysWithin F m (mov i) := by
  refine (looks_source i).staysWithin_bind fun src _ => ?_
  refine (looks_read src _).staysWithin_bind fun v _ => ?_
  refine (looks_destination i).staysWithin_bind fun dst hdst => ?_
  exact staysWithin_write (hd dst (Instr.destination?_of_ok hdst))

theorem lea_stays : StaysWithin F m (lea i) := by
  refine (looks_source i).staysWithin_bind fun src _ => ?_
  cases src with
  | mem ref =>
    refine staysWithin_get_bind ((looks_destination i).staysWithin_bind fun dst hdst => ?_)
    exact staysWithin_write (hd dst (Instr.destination?_of_ok hdst))
  | reg r | imm n | label name => exact staysWithin_throw _

theorem replace_stays {f : Long → Width → Long × FlagUpdate}
    (hf : ∀ a flag, (f a i.width).2.value? flag ≠ none → flag ∈ F.flags) :
    StaysWithin F m (replace f i) := by
  refine (looks_destination i).staysWithin_bind fun dst hdst => ?_
  refine (looks_read dst _).staysWithin_bind fun a _ => ?_
  exact staysWithin_write_update (hd dst (Instr.destination?_of_ok hdst)) (hf a)

theorem shift_stays {op : ShiftOp}
    (hf : ¬ i.IsIdle m → ∀ flag ∈ (Mnemonic.shift op).flags, flag ∈ F.flags) :
    StaysWithin F m (shift op i) := by
  have hrest : ∀ (dst : Operand) (count : Long), i.destination? = some dst →
      (count.toNat % 32 ≠ 0 → ¬ i.IsIdle m) → StaysWithin F m (do
        let a ← read dst i.width
        let r := Alu.shift op a (count.toNat % 32) (← get).flags.carry i.width
        write dst i.width r.1
        update r.2) := by
    intro dst count hdst hidle
    refine (looks_read dst _).staysWithin_bind fun a _ => staysWithin_get_bind ?_
    refine staysWithin_write_update (hd dst hdst) fun flag hflag => ?_
    obtain ⟨hcount, hmem⟩ := FlagUpdate.mem_shift hflag
    exact hf (hidle hcount) flag hmem
  refine (looks_destination i).staysWithin_bind fun dst hdst => ?_
  have hdst := Instr.destination?_of_ok hdst
  dsimp only
  split
  · next hone => exact hrest dst 1 hdst fun _ hidle => hidle.2.1 hone
  · refine (looks_source i).staysWithin_bind fun src hsrc => ?_
    refine (looks_read src _).staysWithin_bind fun count hcount => hrest dst count hdst ?_
    rintro hne ⟨-, -, src', count', hsrc', hcount', hzero⟩
    cases (Instr.source?_of_ok hsrc).symm.trans hsrc'
    cases (read_ok_iff.mp hcount).1.symm.trans hcount'
    exact hne hzero

end Destination

theorem alu_stays {op : AluOp}
    (hd : op ≠ .cmp → ∀ dst, i.destination? = some dst → dst.footprint m i.width ≤ F)
    (hf : ∀ flag ∈ Flag.arithmetic, flag ∈ F.flags) : StaysWithin F m (alu op i) := by
  refine (looks_destination i).staysWithin_bind fun dst hdst => ?_
  refine (looks_source i).staysWithin_bind fun src _ => ?_
  refine (looks_read src _).staysWithin_bind fun b _ => ?_
  refine (looks_read dst _).staysWithin_bind fun a _ => staysWithin_get_bind ?_
  have hupdate : ∀ (u : FlagUpdate) flag, u.value? flag ≠ none → flag ∈ F.flags :=
    fun u flag h => hf flag (u.mem_arithmetic h)
  dsimp only
  split
  · next hop =>
    exact staysWithin_write_update (hd hop dst (Instr.destination?_of_ok hdst)) (hupdate _)
  · exact staysWithin_update (hupdate _)

theorem test_stays (hf : ∀ flag ∈ Flag.arithmetic, flag ∈ F.flags) :
    StaysWithin F m (test i) := by
  refine (looks_destination i).staysWithin_bind fun dst _ => ?_
  refine (looks_source i).staysWithin_bind fun src _ => ?_
  refine (looks_read src _).staysWithin_bind fun b _ => ?_
  refine (looks_read dst _).staysWithin_bind fun a _ => ?_
  exact staysWithin_update fun flag h => hf flag (FlagUpdate.mem_arithmetic h)

theorem setHalves_stays {w : Width} {low high : Long} (hlow : (halves w).1 ∈ F.registers)
    (hhigh : (halves w).2 ∈ F.registers) : StaysWithin F m (setHalves w low high) :=
  staysWithin_modify ((within_set hlow _).trans (within_set hhigh _))

section Halves

variable (hlow : (halves i.width).1 ∈ F.registers) (hhigh : (halves i.width).2 ∈ F.registers)

include hlow hhigh

theorem multiply_stays {f : Long → Long → Width → Long × Long × Bool}
    (hf : ∀ flag ∈ (Mnemonic.unary .mul).flags, flag ∈ F.flags) :
    StaysWithin F m (multiply f i) := by
  refine (looks_destination i).staysWithin_bind fun dst _ => ?_
  refine (looks_read dst _).staysWithin_bind fun b _ => staysWithin_get_bind ?_
  refine (setHalves_stays hlow hhigh).bind fun _ m₁ _ => ?_
  refine staysWithin_modify (within_flags fun flag hflag => ?_)
  have hout := mt (hf flag) hflag
  cases flag <;> first | rfl | exact absurd (by decide) hout

theorem divide_stays {f : Nat → Long → Width → Except Fault (Long × Long)} :
    StaysWithin F m (divide f i) := by
  refine (looks_destination i).staysWithin_bind fun dst _ => ?_
  refine (looks_read dst _).staysWithin_bind fun divisor _ => ?_
  split
  · exact staysWithin_throw _
  · refine staysWithin_get_bind ?_
    dsimp only
    split
    · exact setHalves_stays hlow hhigh
    · exact staysWithin_throw _

end Halves

theorem jump_stays (he : F.eip) : StaysWithin F m (jump i) := by
  refine (looks_destination i).staysWithin_bind fun dst _ => ?_
  refine (looks_read dst _).staysWithin_bind fun target _ => ?_
  exact staysWithin_modify (within_setEip he _)

theorem jumpIf_stays {c : Cond} (he : c.holds m.flags = true → F.eip) :
    StaysWithin F m (jumpIf c i) := by
  refine staysWithin_get_bind ?_
  split
  · next hc => exact jump_stays (he hc)
  · exact staysWithin_pure _

/-! ## The stack -/

theorem pushOperand_within {u : Unit} (h : pushOperand i m = .ok u m') :
    m.Within (m.pushed m') m' := by
  obtain ⟨src, -, h⟩ := (looks_source i).ok_bind h
  obtain ⟨v, -, h⟩ := (looks_read src _).ok_bind h
  exact (push_within h).2

theorem call_within {u : Unit} (h : call i m = .ok u m') (hle : m.pushed m' ≤ F) (he : F.eip) :
    m.Within F m' := by
  obtain ⟨dst, -, h⟩ := (looks_destination i).ok_bind h
  obtain ⟨target, -, h⟩ := (looks_read dst _).ok_bind h
  obtain ⟨_, ⟨⟩, h⟩ := looks_get.ok_bind h
  obtain ⟨_, m₂, hpush, ⟨⟩⟩ := ok_bind_iff.mp h
  exact ((push_within hpush).2.mono hle).trans (within_setEip he target)

/-- The destination of `pop` is found after the stack pointer has moved. -/
theorem popOperand_stays (hesp : .esp ∈ F.registers)
    (hd : ∀ dst, i.destination? = some dst → dst.footprint (m.raised i.width) i.width ≤ F) :
    StaysWithin F m (popOperand i) := by
  refine (staysWithin_pop hesp).bind fun v m₁ hpop => ?_
  obtain ⟨-, rfl⟩ := pop_ok_iff.mp hpop
  refine (looks_destination i).staysWithin_bind fun dst hdst => ?_
  exact staysWithin_write (hd dst (Instr.destination?_of_ok hdst))

theorem popInto_stays {w : Width} {cs : List (BitVec 3)} (hesp : .esp ∈ F.registers)
    (hregs : ∀ c ≠ Reg.esp.code, (⟨w, c⟩ : Reg) ∈ F.registers) :
    StaysWithin F m (popInto w cs) := by
  induction cs generalizing m with
  | nil => exact staysWithin_pure _
  | cons c cs ih =>
    refine (staysWithin_pop hesp).bind fun v m₁ _ => ?_
    dsimp only
    split
    · next hc => exact (staysWithin_modify (within_set (hregs c hc) v)).bind fun _ _ _ => ih
    · exact ih

theorem ret_stays (hesp : .esp ∈ F.registers) (he : F.eip) : StaysWithin F m ret :=
  (staysWithin_pop hesp).bind fun v _ _ => staysWithin_modify (within_setEip he v)

/-! ## All instructions -/

theorem plain_within {op : PlainOp} {u : Unit} (hi : i.mnemonic = .plain op)
    (h : plain op i.width m = .ok u m') : m.Within (i.footprint m m') m' := by
  have hf : ∀ flag ∈ (Mnemonic.plain op).flags, flag ∈ (i.footprint m m').flags :=
    fun flag hflag => Instr.mem_footprint_flags (hi ▸ hflag) (by rw [hi]; rfl)
  have hesp : (Mnemonic.plain op).usesStack = true → .esp ∈ (i.footprint m m').registers :=
    fun hs => .esp (hi ▸ hs)
  have hpushed : (Mnemonic.plain op).pushes = true → m.pushed m' ≤ i.footprint m m' :=
    fun hp => Instr.pushed_le_footprint (hi ▸ hp)
  cases op with
  | pushf =>
    obtain ⟨_, ⟨⟩, hpush⟩ := looks_get.ok_bind h
    exact (push_within hpush).2.mono (hpushed rfl)
  | pusha =>
    obtain ⟨_, ⟨⟩, hpush⟩ := looks_get.ok_bind h
    exact (pushAll_within hpush).2.mono (hpushed rfl)
  | popf =>
    refine (staysWithin_pop (hesp rfl)).bind (fun v m₁ _ => ?_) _ _ h
    exact staysWithin_modify (within_flags fun flag hflag => absurd (hf flag flag.mem_all) hflag)
  | popa =>
    exact popInto_stays (hesp rfl) (fun c hc => Instr.ChangesRegister.popa hi hc) _ _ h
  | ret =>
    have heip : i.Jumps m := by
      rw [Instr.Jumps, hi]
      trivial
    exact ret_stays (hesp rfl) heip _ _ h
  | nop => exact staysWithin_pure () _ _ h
  | stc | clc | cmc | std | cld | sti | cli | sahf =>
    refine staysWithin_modify (within_flags fun flag hflag => ?_) _ _ h
    have hout := mt (hf flag) hflag
    cases flag <;> first | rfl | exact absurd (by decide) hout
  | lahf => exact staysWithin_modify (within_set (Instr.ChangesRegister.lahf hi) _) _ _ h

/-- **An instruction that is performed** changes only what it is said to, if `lea` is given no
destination in memory. -/
theorem perform_within {u : Unit}
    (hlea : i.mnemonic = .lea → ∀ ref, i.destination? ≠ some (.mem ref))
    (h : perform i m = .ok u m') : m.Within (i.footprint m m') m' := by
  have hd : i.mnemonic.writesDestination = true → ∀ dst, i.destination? = some dst →
      dst.footprint (i.atWrite m) i.width ≤ i.footprint m m' :=
    fun hi dst hdst => Instr.destination_footprint_le hi hlea hdst
  have hregs : ∀ r, i.ChangesRegister r → r ∈ (i.footprint m m').registers := fun r hr => hr
  have hpushed : i.mnemonic.pushes = true → m.pushed m' ≤ i.footprint m m' :=
    Instr.pushed_le_footprint
  have hf : ∀ flag ∈ i.mnemonic.flags, ¬ i.IsIdle m → flag ∈ (i.footprint m m').flags :=
    fun flag hflag hidle => ⟨hflag, hidle⟩
  have hf' : i.mnemonic.isShift = false → ∀ flag ∈ i.mnemonic.flags,
      flag ∈ (i.footprint m m').flags :=
    fun hi flag hflag => Instr.mem_footprint_flags hflag hi
  have heip : i.Jumps m → (i.footprint m m').eip := id
  have hplain : ∀ op, i.mnemonic = .plain op → plain op i.width m = .ok u m' →
      m.Within (i.footprint m m') m' := fun op => plain_within
  -- The cases need no more of the footprint than these facts.
  generalize i.footprint m m' = F at *
  obtain ⟨mnemonic, w, ops⟩ := i
  rw [perform_eq] at h
  cases mnemonic with
  | mov => exact mov_stays (hd rfl) _ _ h
  | lea => exact lea_stays (hd rfl) _ _ h
  | push => exact (pushOperand_within h).mono (hpushed rfl)
  | pop => exact popOperand_stays (hregs _ (.esp rfl)) (hd rfl) _ _ h
  | alu op => exact alu_stays (fun hop => hd (bne_iff_ne.mpr hop)) (hf' rfl) _ _ h
  | test => exact test_stays (hf' rfl) _ _ h
  | unary op =>
    cases op with
    | not =>
      refine replace_stays (f := complement) (hd rfl) (fun a flag hflag => ?_) _ _ h
      exact absurd (FlagUpdate.value?_complement a w flag) hflag
    | neg =>
      refine replace_stays (f := Alu.neg) (hd rfl) (fun a flag hflag => ?_) _ _ h
      exact hf' rfl flag (FlagUpdate.mem_arithmetic hflag)
    | mul =>
      exact multiply_stays (f := product) (hregs _ (.low rfl)) (hregs _ (.high rfl)) (hf' rfl) _ _ h
    | imul =>
      exact multiply_stays (f := signedProduct) (hregs _ (.low rfl)) (hregs _ (.high rfl))
        (hf' rfl) _ _ h
    | div =>
      exact divide_stays (f := quotient) (hregs _ (.low rfl)) (hregs _ (.high rfl)) _ _ h
    | idiv =>
      exact divide_stays (f := signedQuotient) (hregs _ (.low rfl)) (hregs _ (.high rfl)) _ _ h
  | inc =>
    refine replace_stays (f := Alu.inc) (hd rfl) (fun a flag hflag => ?_) _ _ h
    exact hf' rfl flag (FlagUpdate.mem_inc hflag)
  | dec =>
    refine replace_stays (f := Alu.dec) (hd rfl) (fun a flag hflag => ?_) _ _ h
    exact hf' rfl flag (FlagUpdate.mem_dec hflag)
  | shift op => exact shift_stays (hd rfl) (fun hidle flag hflag => hf flag hflag hidle) _ _ h
  | jmp => exact jump_stays (heip trivial) _ _ h
  | jcc c => exact jumpIf_stays heip _ _ h
  | call => exact call_within h (hpushed rfl) (heip trivial)
  | plain op => exact hplain op rfl h

end Action

theorem destination_of_lea {bs : List Byte} {address : Long} {d : Decoded}
    (hd : decode bs address = .ok (some d)) (hlea : d.mnemonic = .lea) (ref : MemRef) :
    d.destination? ≠ some (.mem ref) := by
  have htakes := (decode_cases hd).1
  rw [hlea] at htakes
  unfold Instr.destination?
  generalize d.operands = ops at htakes ⊢
  cases htakes with
  | lea hm hr => exact nofun
  | branch hb => cases hb

/-- **An instruction changes only what it names**, whatever the state in which it is executed. -/
theorem execute_within {bs : List Byte} {address : Long} {d : Decoded}
    (hd : decode bs address = .ok (some d)) {m m' : Machine} {goes : Bool}
    (h : Action.execute d.toInstr m = .ok goes m') :
    m.Within (d.toInstr.footprint m m') m' := by
  unfold Action.execute at h
  split at h
  · cases h
    exact .refl _ m
  · obtain ⟨_, m₁, hperform, ⟨⟩⟩ := Action.ok_bind_iff.mp h
    exact Action.perform_within (destination_of_lea hd) hperform

/-- A machine of 64 bytes with four values at its stack pointer. -/
def filledStack : Machine :=
  { memory := (Memory.zeros 64).store 8 [1, 2, 3, 4] : Machine }.set .esp 8

/-- `pop (%esp)` moves the value at the stack pointer four bytes up: the stack pointer has moved
when the destination is found. -/
theorem execute_within_popAbove :
    ∃ d m', decode [0x8F, 0x04, 0x24] 0 = .ok (some d) ∧
      Action.execute d.toInstr filledStack = .ok true m' ∧
      m'.memory.window 8 8 = [1, 2, 3, 4, 1, 2, 3, 4] ∧
      filledStack.Within (d.toInstr.footprint filledStack m') m' := by
  have hd : decode [0x8F, 0x04, 0x24] 0 =
      .ok (some ⟨⟨.pop, .long, [.mem { base := some .esp }]⟩, 0, 3⟩) := by
    decide +kernel
  have hexecute : Action.execute ⟨.pop, .long, [.mem { base := some .esp }]⟩ filledStack =
      .ok true { filledStack.raised .long with
        memory := filledStack.memory.store 12 [1, 2, 3, 4] } := rfl
  exact ⟨_, _, hd, hexecute, by decide +kernel, execute_within hd hexecute⟩

end Ia32
