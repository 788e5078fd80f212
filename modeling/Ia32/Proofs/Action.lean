import Ia32.Proofs.Decoded
import Ia32.Proofs.Effect

/-!
# What actions do

* `Action.Obeys`: the faults that an action can end with, and how it can change the machine,
  whether it fails or not; `Obeys.bind`: one part at a time;
* `Action.Rules`: the faults and changes that come with operands and the stack;
* `Action.mov_obeys`, …, `Action.plain_obeys`: each group of instructions obeys such rules;
* **`Action.perform_obeys`**: so does every instruction that is decoded.
-/

set_option autoImplicit false

namespace Ia32

/-! ## Operands of an instruction -/

namespace Instr

variable {i : Instr} {op : Operand}

theorem source_eq (h : i.source? = some op) : i.source = pure op := by
  rw [source, h]

theorem destination_eq (h : i.destination? = some op) : i.destination = pure op := by
  rw [destination, h]

end Instr

theorem Operand.ne_label_of_isRM {op : Operand} (h : op.isRM = true) (name : String) :
    op ≠ .label name := by
  rintro rfl
  cases h

namespace Action

/-! ## Rules -/

variable {α β : Type} {P : Fault → Prop} {R : Machine → Machine → Prop} {a : Action α}
  {k : α → Action β}

/-- An action ends with faults of one kind only, and changes the machine in one way only. -/
def Obeys (P : Fault → Prop) (R : Machine → Machine → Prop) (a : Action α) : Prop :=
  ∀ m, match a m with
    | .ok _ m' => R m m'
    | .error f m' => P f ∧ R m m'

/-- Rules that let operands be read and written, flags be set, and the stack be used. -/
structure Rules (P : Fault → Prop) (R : Machine → Machine → Prop) : Prop where
  access : ∀ address length, P (.illegalAccess address length)
  overflow : P .stackOverflow
  underflow : P .stackUnderflow
  refl : ∀ m, R m m
  trans : ∀ m₁ m₂ m₃, R m₁ m₂ → R m₂ m₃ → R m₁ m₃
  set : ∀ m r v, R m (m.set r v)
  flags : ∀ m f, R m { m with flags := f }
  store : ∀ m address bs, R m { m with memory := m.memory.store address bs }

theorem Obeys.ok (ha : Obeys P R a) {m m' : Machine} {x : α} (h : a m = .ok x m') : R m m' := by
  have hm := ha m
  rwa [h] at hm

theorem Obeys.error (ha : Obeys P R a) {m m' : Machine} {f : Fault} (h : a m = .error f m') :
    P f ∧ R m m' := by
  have hm := ha m
  rwa [h] at hm

section Parts

variable (h : Rules P R)

include h

theorem obeys_pure (x : α) : Obeys P R (pure x) := h.refl

theorem obeys_get : Obeys P R (get : Action Machine) := h.refl

theorem obeys_throw {f : Fault} (hf : P f) : Obeys P R (throw f : Action α) :=
  fun m => ⟨hf, h.refl m⟩

omit h in
theorem obeys_modify {g : Machine → Machine} (hg : ∀ m, R m (g m)) :
    Obeys P R (modify g : Action PUnit) := hg

theorem Obeys.bind (ha : Obeys P R a) (hk : ∀ x, Obeys P R (k x)) : Obeys P R (a >>= k) := by
  intro m
  have ham := ha m
  change match EStateM.bind a k m with
    | .ok _ m' => R m m'
    | .error f m' => P f ∧ R m m'
  unfold EStateM.bind
  cases hm : a m with
  | error f m₁ =>
    rw [hm] at ham
    exact ham
  | ok x m₁ =>
    rw [hm] at ham
    have hkm := hk x m₁
    dsimp only
    cases hx : k x m₁ with
    | ok y m₂ =>
      rw [hx] at hkm
      exact h.trans m m₁ m₂ ham hkm
    | error f m₂ =>
      rw [hx] at hkm
      exact ⟨hkm.1, h.trans m m₁ m₂ ham hkm.2⟩

theorem obeys_look {f : Machine → Except Fault α} (hf : ∀ m, Raises P (f m)) :
    Obeys P R (look f) := by
  refine (obeys_get h).bind h fun m => ?_
  have hfm := hf m
  cases hx : f m with
  | ok x => exact obeys_pure h x
  | error e => exact obeys_throw h (hfm e hx)

/-! ## Operands and the stack -/

theorem read_raises (mem : Memory) (address : Long) (w : Width) :
    Raises P (mem.read address w) := by
  unfold Memory.read
  split
  · exact .ok
  · exact .error (h.access _ _)

theorem read_obeys {op : Operand} (hop : ∀ name, op ≠ .label name) (w : Width) :
    Obeys P R (read op w) := by
  refine obeys_look h fun m => ?_
  cases op with
  | reg r | imm n => exact .ok
  | mem ref => exact read_raises h _ _ _
  | label name => exact absurd rfl (hop name)

theorem store_obeys (address : Long) (w : Width) (v : Long) : Obeys P R (store address w v) := by
  refine (obeys_get h).bind h fun m => ?_
  split
  · exact obeys_modify fun m => h.store m _ _
  · exact obeys_throw h (h.access _ _)

theorem write_obeys {op : Operand} (hop : op.isRM = true) (w : Width) (v : Long) :
    Obeys P R (write op w v) := by
  cases op with
  | reg r => exact obeys_modify fun m => h.set m _ _
  | mem ref => exact (obeys_get h).bind h fun m => store_obeys h _ _ _
  | imm n | label name => cases hop

theorem update_obeys (u : FlagUpdate) : Obeys P R (update u) := obeys_modify fun m => h.flags m _

theorem push_obeys (w : Width) (v : Long) : Obeys P R (push w v) := by
  refine (obeys_get h).bind h fun m => ?_
  dsimp only
  split
  · exact obeys_throw h h.overflow
  · exact (obeys_modify fun m => h.set m _ _).bind h fun _ => store_obeys h _ _ _

theorem pop_obeys (w : Width) : Obeys P R (pop w) := by
  refine (obeys_get h).bind h fun m => (obeys_get h).bind h fun _ => ?_
  dsimp only
  split
  · exact obeys_throw h h.underflow
  · refine (obeys_look h fun m => read_raises h _ _ _).bind h fun v => ?_
    exact (obeys_modify fun m => h.set m _ _).bind h fun _ => obeys_pure h v

/-! ## Groups of instructions -/

variable {i : Instr} {src dst : Operand}

theorem mov_obeys (hs : i.source? = some src) (hd : i.destination? = some dst)
    (hsrc : ∀ name, src ≠ .label name) (hdst : dst.isRM = true) : Obeys P R (mov i) := by
  unfold mov
  rw [Instr.source_eq hs, Instr.destination_eq hd, pure_bind]
  refine (read_obeys h hsrc _).bind h fun v => ?_
  rw [pure_bind]
  exact write_obeys h hdst _ _

theorem lea_obeys {ref : MemRef} (hs : i.source? = some (.mem ref))
    (hd : i.destination? = some dst) (hdst : dst.isRM = true) : Obeys P R (lea i) := by
  unfold lea
  rw [Instr.source_eq hs, Instr.destination_eq hd, pure_bind]
  refine (obeys_get h).bind h fun m => ?_
  rw [pure_bind]
  exact write_obeys h hdst _ _

theorem alu_obeys (op : AluOp) (hs : i.source? = some src) (hd : i.destination? = some dst)
    (hsrc : ∀ name, src ≠ .label name) (hdst : dst.isRM = true) : Obeys P R (alu op i) := by
  unfold alu
  rw [Instr.source_eq hs, Instr.destination_eq hd, pure_bind, pure_bind]
  refine (read_obeys h hsrc _).bind h fun b => ?_
  refine (read_obeys h (Operand.ne_label_of_isRM hdst) _).bind h fun a => ?_
  refine (obeys_get h).bind h fun m => ?_
  dsimp only
  split
  · exact (write_obeys h hdst _ _).bind h fun _ => update_obeys h _
  · exact update_obeys h _

theorem test_obeys (hs : i.source? = some src) (hd : i.destination? = some dst)
    (hsrc : ∀ name, src ≠ .label name) (hdst : ∀ name, dst ≠ .label name) :
    Obeys P R (test i) := by
  unfold test
  rw [Instr.source_eq hs, Instr.destination_eq hd, pure_bind, pure_bind]
  refine (read_obeys h hsrc _).bind h fun b => (read_obeys h hdst _).bind h fun a => ?_
  exact update_obeys h _

theorem replace_obeys (f : Long → Width → Long × FlagUpdate) (hd : i.destination? = some dst)
    (hdst : dst.isRM = true) : Obeys P R (replace f i) := by
  unfold replace
  rw [Instr.destination_eq hd, pure_bind]
  refine (read_obeys h (Operand.ne_label_of_isRM hdst) _).bind h fun a => ?_
  exact (write_obeys h hdst _ _).bind h fun _ => update_obeys h _

theorem setHalves_obeys (w : Width) (low high : Long) : Obeys P R (setHalves w low high) :=
  obeys_modify fun m => h.trans _ _ _ (h.set m _ _) (h.set _ _ _)

theorem multiply_obeys (f : Long → Long → Width → Long × Long × Bool)
    (hd : i.destination? = some dst) (hdst : ∀ name, dst ≠ .label name) :
    Obeys P R (multiply f i) := by
  unfold multiply
  rw [Instr.destination_eq hd, pure_bind]
  refine (read_obeys h hdst _).bind h fun b => (obeys_get h).bind h fun m => ?_
  exact (setHalves_obeys h _ _ _).bind h fun _ => obeys_modify fun m => h.flags m _

theorem divide_obeys {f : Nat → Long → Width → Except Fault (Long × Long)}
    (hzero : P .divisionByZero) (hf : ∀ n v w, Raises P (f n v w))
    (hd : i.destination? = some dst) (hdst : ∀ name, dst ≠ .label name) :
    Obeys P R (divide f i) := by
  unfold divide
  rw [Instr.destination_eq hd, pure_bind]
  refine (read_obeys h hdst _).bind h fun divisor => ?_
  split
  · exact obeys_throw h hzero
  · refine (obeys_get h).bind h fun m => ?_
    dsimp only
    split
    · exact setHalves_obeys h _ _ _
    · next e he => exact obeys_throw h (hf _ _ _ e he)

omit h in
theorem quotient_raises (hP : P .quotientTooLarge) (n : Nat) (v : Long) (w : Width) :
    Raises P (quotient n v w) := by
  unfold quotient
  dsimp only
  split
  · exact .error hP
  · exact .ok

omit h in
theorem signedQuotient_raises (hP : P .quotientTooLarge) (n : Nat) (v : Long) (w : Width) :
    Raises P (signedQuotient n v w) := by
  unfold signedQuotient
  dsimp only
  split
  · exact .ok
  · exact .error hP

theorem unary_obeys (op : UnaryOp)
    (hop : op = .div ∨ op = .idiv → P .divisionByZero ∧ P .quotientTooLarge)
    (hd : i.destination? = some dst) (hdst : dst.isRM = true) : Obeys P R (unary op i) := by
  have hread := Operand.ne_label_of_isRM hdst
  cases op with
  | not => exact replace_obeys h complement hd hdst
  | neg => exact replace_obeys h Alu.neg hd hdst
  | mul => exact multiply_obeys h product hd hread
  | imul => exact multiply_obeys h signedProduct hd hread
  | div =>
    obtain ⟨hzero, hlarge⟩ := hop (.inl rfl)
    exact divide_obeys h hzero (quotient_raises hlarge) hd hread
  | idiv =>
    obtain ⟨hzero, hlarge⟩ := hop (.inr rfl)
    exact divide_obeys h hzero (signedQuotient_raises hlarge) hd hread

theorem shift_obeys (op : ShiftOp) (hs : i.source? = some src) (hd : i.destination? = some dst)
    (hsrc : ∀ name, src ≠ .label name) (hdst : dst.isRM = true) : Obeys P R (shift op i) := by
  unfold shift
  rw [Instr.source_eq hs, Instr.destination_eq hd, pure_bind]
  have hrest : ∀ count : Long, Obeys P R (do
      let a ← read dst i.width
      let r := Alu.shift op a (count.toNat % 32) (← get).flags.carry i.width
      write dst i.width r.1
      update r.2) := by
    intro count
    refine (read_obeys h (Operand.ne_label_of_isRM hdst) _).bind h fun a => ?_
    refine (obeys_get h).bind h fun m => ?_
    exact (write_obeys h hdst _ _).bind h fun _ => update_obeys h _
  dsimp only
  split
  · exact hrest 1
  · rw [pure_bind]
    exact (read_obeys h hsrc _).bind h hrest

theorem pushOperand_obeys (hs : i.source? = some src) (hsrc : ∀ name, src ≠ .label name) :
    Obeys P R (pushOperand i) := by
  unfold pushOperand
  rw [Instr.source_eq hs, pure_bind]
  exact (read_obeys h hsrc _).bind h fun v => push_obeys h _ _

theorem popOperand_obeys (hd : i.destination? = some dst) (hdst : dst.isRM = true) :
    Obeys P R (popOperand i) := by
  unfold popOperand
  refine (pop_obeys h _).bind h fun v => ?_
  rw [Instr.destination_eq hd, pure_bind]
  exact write_obeys h hdst _ _

theorem pushAll_obeys (w : Width) (vs : List Long) : Obeys P R (pushAll w vs) := by
  induction vs with
  | nil => exact obeys_pure h _
  | cons v vs ih => exact (push_obeys h w v).bind h fun _ => ih

theorem popInto_obeys (w : Width) (cs : List (BitVec 3)) : Obeys P R (popInto w cs) := by
  induction cs with
  | nil => exact obeys_pure h _
  | cons c cs ih =>
    refine (pop_obeys h w).bind h fun v => ?_
    dsimp only
    split
    · exact (obeys_modify fun m => h.set m _ _).bind h fun _ => ih
    · exact ih

theorem plain_obeys (op : PlainOp) (w : Width) (hret : op = .ret → ∀ m v, R m (m.setEip v)) :
    Obeys P R (plain op w) := by
  cases op with
  | pushf => exact (obeys_get h).bind h fun m => push_obeys h _ _
  | popf => exact (pop_obeys h w).bind h fun v => obeys_modify fun m => h.flags m _
  | pusha => exact (obeys_get h).bind h fun m => pushAll_obeys h _ _
  | popa => exact popInto_obeys h _ _
  | ret => exact (pop_obeys h .long).bind h fun v => obeys_modify fun m => hret rfl m v
  | nop => exact obeys_pure h _
  | stc | clc | cmc | std | cld | sti | cli => exact obeys_modify fun m => h.flags m _
  | lahf => exact obeys_modify fun m => h.set m _ _
  | sahf => exact obeys_modify fun m => h.flags m _

theorem jump_obeys (hd : i.destination? = some dst) (hdst : ∀ name, dst ≠ .label name)
    (heip : ∀ m v, R m (m.setEip v)) : Obeys P R (jump i) := by
  unfold jump
  rw [Instr.destination_eq hd, pure_bind]
  exact (read_obeys h hdst _).bind h fun v => obeys_modify fun m => heip m v

theorem jumpIf_obeys (c : Cond) (hd : i.destination? = some dst)
    (hdst : ∀ name, dst ≠ .label name) (heip : ∀ m v, R m (m.setEip v)) :
    Obeys P R (jumpIf c i) := by
  refine (obeys_get h).bind h fun m => ?_
  split
  · exact jump_obeys h hd hdst heip
  · exact obeys_pure h _

theorem call_obeys (hd : i.destination? = some dst) (hdst : ∀ name, dst ≠ .label name)
    (heip : ∀ m v, R m (m.setEip v)) : Obeys P R (call i) := by
  unfold call
  rw [Instr.destination_eq hd, pure_bind]
  refine (read_obeys h hdst _).bind h fun v => (obeys_get h).bind h fun m => ?_
  exact (push_obeys h _ _).bind h fun _ => obeys_modify fun m => heip m v

/-! ## All instructions -/

/-- **Every instruction that is decoded** obeys rules that let it divide, if it divides, and move
the instruction pointer, if it is a branch or `ret`. -/
theorem perform_obeys (ht : i.mnemonic.Takes i.width i.operands)
    (hdiv : i.mnemonic = .unary .div ∨ i.mnemonic = .unary .idiv →
      P .divisionByZero ∧ P .quotientTooLarge)
    (heip : i.mnemonic.isBranch = true ∨ i.mnemonic = .plain .ret → ∀ m v, R m (m.setEip v)) :
    Obeys P R (perform i) := by
  obtain ⟨m, w, ops⟩ := i
  dsimp only at ht hdiv heip
  rw [perform_eq]
  cases ht with
  | mov hs hd hrm => exact mov_obeys h rfl rfl hs.ne_label hrm
  | alu op hs hd hrm => exact alu_obeys h op rfl rfl hs.ne_label hrm
  | test hs hd => exact test_obeys h rfl rfl hs.ne_label hd.ne_label
  | lea hm hr => exact lea_obeys h rfl rfl rfl
  | push hs => exact pushOperand_obeys h rfl hs.ne_label
  | pop hd hrm => exact popOperand_obeys h rfl hrm
  | unary op hd hrm =>
    refine unary_obeys h op (fun hop => hdiv ?_) rfl hrm
    rcases hop with rfl | rfl
    · exact .inl rfl
    · exact .inr rfl
  | inc hd hrm => exact replace_obeys h Alu.inc rfl hrm
  | dec hd hrm => exact replace_obeys h Alu.dec rfl hrm
  | shiftBy op h0 h1 hd hrm => exact shift_obeys h op rfl rfl nofun hrm
  | shiftCl op hd hrm => exact shift_obeys h op rfl rfl nofun hrm
  | branch hm hw n =>
    have hmove := heip (.inl hm)
    cases m with
    | jmp => exact jump_obeys h rfl nofun hmove
    | jcc c => exact jumpIf_obeys h c rfl nofun hmove
    | call => exact call_obeys h rfl nofun hmove
    | _ => cases hm
  | plain op => exact plain_obeys h op w fun hop => heip (.inr (congrArg _ hop))

end Parts

end Action

end Ia32
