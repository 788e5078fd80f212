import Ia32.Proofs.Stack

/-!
# Failures of stack instructions

* `Action.BreaksOff`: how a stack instruction fails, and the machine that it leaves;
* `Action.pushOperand_error_iff`, `Action.popOperand_error_iff`, …: how each of them fails;
* `Action.breaksOff_of_error`, `Action.error_of_breaksOff`: all of them together;
* `Action.BreaksOff.sameFlow`, `Action.BreaksOff.memory`, `Action.BreaksOff.sameRegisters`: what a
  failure leaves alone;
* **`stack_failure_iff`**: stack instructions that are decoded fail so, and not otherwise.
-/

set_option autoImplicit false

namespace Ia32

namespace Action

open Machine

variable {w : Width} {v : Long} {m m' : Machine} {f : Fault}

/-! ## Stack instructions -/

/-- How a stack instruction fails, and the machine that it leaves. -/
inductive BreaksOff (i : Instr) (m : Machine) : Fault → Machine → Prop where
  /-- The operand cannot be read. -/
  | unread {src : Operand} {f : Fault} (hi : i.mnemonic = .push) (hs : i.source? = some src)
      (hread : m.readOperand src i.width = .error f) : BreaksOff i m f m
  | push {src : Operand} {v : Long} {f : Fault} {m' : Machine} (hi : i.mnemonic = .push)
      (hs : i.source? = some src) (hread : m.readOperand src i.width = .ok v)
      (h : PushFails i.width m f m') : BreaksOff i m f m'
  | pushf {f : Fault} {m' : Machine} (hi : i.mnemonic = .plain .pushf)
      (h : PushFails i.width m f m') : BreaksOff i m f m'
  | call {f : Fault} {m' : Machine} (hi : i.mnemonic = .call) (h : PushFails .long m f m') :
      BreaksOff i m f m'
  | pop {f : Fault} {m' : Machine} (hi : i.mnemonic = .pop ∨ i.mnemonic = .plain .popf)
      (h : PopFails i.width m f m') : BreaksOff i m f m'
  | ret {f : Fault} {m' : Machine} (hi : i.mnemonic = .plain .ret) (h : PopFails .long m f m') :
      BreaksOff i m f m'
  /-- The value has been taken off the stack, but cannot be written where it should go. -/
  | unwritten {ref : MemRef} (hi : i.mnemonic = .pop) (hd : i.destination? = some (.mem ref))
      (hpop : m.memory.covers (m.get .esp) i.width.bytes = true)
      (hc : m.memory.covers ((m.raised i.width).effectiveAddress ref) i.width.bytes = false) :
      BreaksOff i m (.illegalAccess ((m.raised i.width).effectiveAddress ref) i.width.bytes)
        (m.raised i.width)
  /-- So many registers have been put on the stack before one cannot be. -/
  | pusha {k : Nat} {m₁ : Machine} {f : Fault} {m' : Machine} (hi : i.mnemonic = .plain .pusha)
      (hk : k < pushOrder.length)
      (hdone : pushAll i.width ((pushOrder.take k).map fun c => m.get ⟨i.width, c⟩) m = .ok () m₁)
      (h : PushFails i.width m₁ f m') : BreaksOff i m f m'
  /-- So many registers have been taken off the stack before one cannot be. -/
  | popa {k : Nat} {m₁ : Machine} {f : Fault} {m' : Machine} (hi : i.mnemonic = .plain .popa)
      (hk : k < pushOrder.length)
      (hdone : popInto i.width (pushOrder.reverse.take k) m = .ok () m₁)
      (h : PopFails i.width m₁ f m') : BreaksOff i m f m'

variable {i : Instr}

theorem pushOperand_error_iff {src : Operand} (hs : i.source? = some src) :
    pushOperand i m = .error f m' ↔
      (m.readOperand src i.width = .error f ∧ m' = m) ∨
      ∃ v, m.readOperand src i.width = .ok v ∧ PushFails i.width m f m' := by
  unfold pushOperand
  rw [Instr.source_eq hs, pure_bind, error_bind_iff, read_error_iff]
  refine or_congr_right ⟨?_, ?_⟩
  · rintro ⟨v, m₁, hv, h⟩
    obtain ⟨hread, rfl⟩ := read_ok_iff.mp hv
    exact ⟨v, hread, push_error_iff.mp h⟩
  · rintro ⟨v, hread, h⟩
    exact ⟨v, m, read_ok_iff.mpr ⟨hread, rfl⟩, push_error_iff.mpr h⟩

theorem write_error_iff {dst : Operand} (hdst : dst.isRM = true) :
    write dst w v m = .error f m' ↔
      ∃ ref, dst = .mem ref ∧ m.memory.covers (m.effectiveAddress ref) w.bytes = false ∧
        f = .illegalAccess (m.effectiveAddress ref) w.bytes ∧ m' = m := by
  cases dst with
  | reg r =>
    constructor
    · intro h
      cases h
    · rintro ⟨ref, href, -⟩
      cases href
  | mem ref =>
    change store (m.effectiveAddress ref) w (v &&& w.mask) m = _ ↔ _
    rw [store_eq]
    constructor
    · intro h
      split at h
      · cases h
      · next hc =>
        cases h
        exact ⟨ref, rfl, Bool.eq_false_iff.mpr hc, rfl, rfl⟩
    · rintro ⟨ref', href, hc, rfl, rfl⟩
      cases href
      rw [hc]
      rfl
  | imm n | label name => cases hdst

/-- The address of the destination is found after the stack pointer has moved. -/
theorem popOperand_error_iff {dst : Operand} (hd : i.destination? = some dst)
    (hdst : dst.isRM = true) : popOperand i m = .error f m' ↔
      PopFails i.width m f m' ∨
      ∃ ref, dst = .mem ref ∧ m.memory.covers (m.get .esp) i.width.bytes = true ∧
        m.memory.covers ((m.raised i.width).effectiveAddress ref) i.width.bytes = false ∧
        f = .illegalAccess ((m.raised i.width).effectiveAddress ref) i.width.bytes ∧
        m' = m.raised i.width := by
  unfold popOperand
  rw [error_bind_iff, pop_error_iff]
  refine or_congr_right ⟨?_, ?_⟩
  · rintro ⟨v, m₁, hv, h⟩
    obtain ⟨hread, rfl⟩ := pop_ok_iff.mp hv
    rw [Instr.destination_eq hd, pure_bind] at h
    obtain ⟨ref, href, hc, hf, hm⟩ := (write_error_iff hdst).mp h
    refine ⟨ref, href, ?_, hc, hf, hm⟩
    by_contra hout
    rw [Memory.read, if_neg hout] at hread
    cases hread
  · rintro ⟨ref, href, hcovers, hc, hf, hm⟩
    refine ⟨_, m.raised i.width, pop_ok_iff.mpr ⟨if_pos hcovers, rfl⟩, ?_⟩
    rw [Instr.destination_eq hd, pure_bind]
    exact (write_error_iff hdst).mpr ⟨ref, href, hc, hf, hm⟩

theorem call_error_iff {n : Int} (hops : i.operands = [.imm n]) :
    call i m = .error f m' ↔ PushFails .long m f m' := by
  have hd : i.destination? = some (.imm n) := by rw [Instr.destination?, hops]; rfl
  unfold call
  rw [Instr.destination_eq hd, pure_bind]
  change ((do push .long m.eip; modify fun m => m.setEip (Width.long.truncate n) : Action Unit) m
    = .error f m') ↔ _
  rw [error_bind_iff, push_error_iff]
  refine or_iff_left ?_
  rintro ⟨u, m₁, -, h⟩
  cases h

theorem pushRegisters_error_iff : pushRegisters w m = .error f m' ↔
    ∃ k m₁, k < pushOrder.length ∧
      pushAll w ((pushOrder.take k).map fun c => m.get ⟨w, c⟩) m = .ok () m₁ ∧
      PushFails w m₁ f m' := by
  change pushAll w (pushOrder.map fun c => m.get ⟨w, c⟩) m = _ ↔ _
  rw [pushAll_error_iff, List.length_map]
  simp only [List.map_take]

theorem breaksOff_of_error (hi : i.mnemonic.usesStack = true)
    (ht : i.mnemonic.Takes i.width i.operands) (h : perform i m = .error f m') :
    BreaksOff i m f m' := by
  obtain ⟨mnemonic, w, ops⟩ := i
  dsimp only at hi ht
  cases ht with
  | push hs =>
    rcases (pushOperand_error_iff rfl).mp h with ⟨hread, rfl⟩ | ⟨v, hread, hfails⟩
    · exact .unread rfl rfl hread
    · exact .push rfl rfl hread hfails
  | pop hd hrm =>
    rcases (popOperand_error_iff rfl hrm).mp h with hfails | ⟨ref, rfl, hpop, hc, rfl, rfl⟩
    · exact .pop (.inl rfl) hfails
    · exact .unwritten rfl rfl hpop hc
  | branch hm hw n =>
    cases mnemonic with
    | call => exact .call rfl ((call_error_iff rfl).mp h)
    | jmp | jcc c => cases hi
    | _ => cases hm
  | plain op =>
    cases op with
    | pushf => exact .pushf rfl (push_error_iff.mp h)
    | popf => exact .pop (.inr rfl) (pop_bind_error_iff.mp h)
    | pusha =>
      obtain ⟨k, m₁, hk, hdone, hfails⟩ := pushRegisters_error_iff.mp h
      exact .pusha rfl hk hdone hfails
    | popa =>
      obtain ⟨k, m₁, hk, hdone, hfails⟩ := popInto_error_iff.mp h
      exact .popa rfl hk hdone hfails
    | ret => exact .ret rfl (pop_bind_error_iff.mp h)
    | _ => cases hi
  | _ => cases hi

theorem error_of_breaksOff (ht : i.mnemonic.Takes i.width i.operands) (h : BreaksOff i m f m') :
    perform i m = .error f m' := by
  rw [perform_eq, effect]
  cases h with
  | unread hi hs hread =>
    rw [hi]
    exact (pushOperand_error_iff hs).mpr (.inl ⟨hread, rfl⟩)
  | push hi hs hread h =>
    rw [hi]
    exact (pushOperand_error_iff hs).mpr (.inr ⟨_, hread, h⟩)
  | pushf hi h =>
    rw [hi]
    exact push_error_iff.mpr h
  | call hi h =>
    obtain ⟨-, n, hops⟩ := ht.of_isBranch (by rw [hi]; rfl)
    rw [hi]
    exact (call_error_iff hops).mpr h
  | pop hi h =>
    rcases hi with hi | hi
    · rw [hi]
      exact error_bind_iff.mpr (.inl (pop_error_iff.mpr h))
    · rw [hi]
      exact pop_bind_error_iff.mpr h
  | ret hi h =>
    rw [hi]
    exact pop_bind_error_iff.mpr h
  | unwritten hi hd hpop hc =>
    rw [hi]
    exact (popOperand_error_iff hd rfl).mpr (.inr ⟨_, rfl, hpop, hc, rfl, rfl⟩)
  | pusha hi hk hdone h =>
    rw [hi]
    exact pushRegisters_error_iff.mpr ⟨_, _, hk, hdone, h⟩
  | popa hi hk hdone h =>
    rw [hi]
    exact popInto_error_iff.mpr ⟨_, _, hk, hdone, h⟩

theorem execute_error_iff (hi : isStop i = false) :
    execute i m = .error f m' ↔ perform i m = .error f m' := by
  unfold execute
  rw [hi, if_neg Bool.false_ne_true, error_bind_iff]
  refine or_iff_left ?_
  rintro ⟨u, m₁, -, h⟩
  cases h

theorem isStop_of_usesStack (hi : i.mnemonic.usesStack = true) : isStop i = false := by
  obtain ⟨mnemonic, w, ops⟩ := i
  refine Bool.eq_false_iff.mpr fun hstop => ?_
  have hnop : mnemonic = .plain .nop := by simpa [isStop] using hstop
  subst hnop
  cases hi

/-! ## What a failure leaves alone -/

theorem PushFails.sameFlow (h : PushFails w m f m') : SameFlow m m' ∧ SameRegisters m m' :=
  sameFlow_push (.inr ⟨f, (push_error_iff (v := 0)).mpr h⟩)

theorem PushFails.memory (h : PushFails w m f m') : m'.memory = m.memory := by
  cases h <;> rfl

theorem PopFails.eq (h : PopFails w m f m') : m' = m := by
  cases h
  rfl

theorem BreaksOff.sameFlow (h : BreaksOff i m f m') : SameFlow m m' := by
  cases h with
  | unread => exact .refl m
  | push _ _ _ h | pushf _ h | call _ h => exact h.sameFlow.1
  | pop _ h | ret _ h =>
    obtain rfl := h.eq
    exact .refl _
  | unwritten => exact sameFlow_set _ _ _
  | pusha _ _ hdone h => exact (sameFlow_pushAll (.inl ⟨_, hdone⟩)).1.trans h.sameFlow.1
  | popa _ _ hdone h =>
    obtain rfl := h.eq
    exact (sameFlow_popInto (.inl ⟨_, hdone⟩)).1

theorem BreaksOff.memory (h : BreaksOff i m f m') (hi : i.mnemonic ≠ .plain .pusha) :
    m'.memory = m.memory := by
  cases h with
  | unread | unwritten => rfl
  | push _ _ _ h | pushf _ h | call _ h => exact h.memory
  | pop _ h | ret _ h => rw [h.eq]
  | pusha hpusha => exact absurd hpusha hi
  | popa _ _ hdone h =>
    obtain rfl := h.eq
    exact (sameFlow_popInto (.inl ⟨_, hdone⟩)).2

theorem BreaksOff.sameRegisters (h : BreaksOff i m f m') (hi : i.mnemonic ≠ .plain .popa) :
    SameRegisters m m' := by
  cases h with
  | unread => exact .refl m
  | push _ _ _ h | pushf _ h | call _ h => exact h.sameFlow.2
  | pop _ h | ret _ h =>
    obtain rfl := h.eq
    exact .refl _
  | unwritten => exact sameRegisters_set_esp _ _
  | pusha _ _ hdone h => exact (sameFlow_pushAll (.inl ⟨_, hdone⟩)).2.trans h.sameFlow.2
  | popa hpopa => exact absurd hpopa hi

end Action

/-! ## Decoded instructions -/

/-- **Stack instructions fail as `BreaksOff` says, and not otherwise**; what puts one value on the
stack, or takes one off it, fails as `PushFails` and `PopFails` say. A failure changes no flags, nor
where control goes; it changes memory only under `pusha`, and registers other than the stack pointer
only under `popa`. -/
theorem stack_failure_iff :
    (∀ w v m f m', Action.push w v m = .error f m' ↔ Action.PushFails w m f m') ∧
    (∀ w m f m', Action.pop w m = .error f m' ↔ Action.PopFails w m f m') ∧
    ∀ bs address d, decode bs address = .ok (some d) → d.mnemonic.usesStack = true →
      ∀ m f m',
        (Action.execute d.toInstr m = .error f m' ↔ Action.BreaksOff d.toInstr m f m') ∧
        (Action.execute d.toInstr m = .error f m' →
          m.SameFlow m' ∧
          (d.mnemonic ≠ .plain .pusha → m'.memory = m.memory) ∧
          (d.mnemonic ≠ .plain .popa → m.SameRegisters m')) := by
  refine ⟨fun w v m f m' => Action.push_error_iff, fun w m f m' => Action.pop_error_iff, ?_⟩
  intro bs address d hd hstack m f m'
  have ht := (decode_cases hd).1
  have hiff : Action.execute d.toInstr m = .error f m' ↔ Action.BreaksOff d.toInstr m f m' := by
    rw [Action.execute_error_iff (Action.isStop_of_usesStack hstack)]
    exact ⟨Action.breaksOff_of_error hstack ht, Action.error_of_breaksOff ht⟩
  refine ⟨hiff, fun h => ?_⟩
  have hbreaks := hiff.mp h
  exact ⟨hbreaks.sameFlow, hbreaks.memory, hbreaks.sameRegisters⟩

/-- A machine of 64 bytes with a stack pointer, and an address beyond its memory in `ebx`. -/
def stackAt (esp : Long) : Machine := ((Machine.new 64).set .esp esp).set .ebx 0x100

/-- What is taken off the stack cannot be written at the address in `ebx`. Only the stack pointer
has moved. -/
theorem stack_failure_iff_popFar :
    ∃ d, decode [0x8F, 0x03] 0 = .ok (some d) ∧ d.mnemonic.usesStack = true ∧
      Action.BreaksOff d.toInstr (stackAt 0) (.illegalAccess 0x100 4) ((stackAt 0).raised .long) ∧
      (stackAt 0).SameFlow ((stackAt 0).raised .long) ∧
      (stackAt 0).SameRegisters ((stackAt 0).raised .long) := by
  have hd : decode [0x8F, 0x03] 0 =
      .ok (some ⟨⟨.pop, .long, [.mem { base := some .ebx }]⟩, 0, 2⟩) := by
    decide +kernel
  have herror : Action.execute ⟨.pop, .long, [.mem { base := some .ebx }]⟩ (stackAt 0) =
      .error (.illegalAccess 0x100 4) ((stackAt 0).raised .long) := rfl
  obtain ⟨hiff, hsame⟩ := stack_failure_iff.2.2 _ _ _ hd rfl (stackAt 0) _ _
  obtain ⟨hflow, -, hregs⟩ := hsame herror
  exact ⟨_, hd, rfl, hiff.mp herror, hflow, hregs (by decide)⟩

/-- **The stack pointer does not come back**: what is put on a stack beyond memory moves it all the
same, also where the value is that of an instruction. -/
theorem push_failure_moves_esp :
    (∃ f m', Action.push .long 1 (stackAt 0x100) = .error f m' ∧ m'.get .esp = 0xFC) ∧
    ∃ d, decode [0x50] 0 = .ok (some d) ∧ d.mnemonic.usesStack = true ∧
      ∃ f m', Action.execute d.toInstr (stackAt 0x100) = .error f m' ∧
        m'.get .esp ≠ (stackAt 0x100).get .esp := by
  have hd : decode [0x50] 0 = .ok (some ⟨⟨.push, .long, [.reg .eax]⟩, 0, 1⟩) := by decide +kernel
  have hexecute : Action.execute ⟨.push, .long, [.reg .eax]⟩ (stackAt 0x100) =
      .error (.illegalAccess 0xFC 4) ((stackAt 0x100).lowered .long) := rfl
  have hpush : Action.push .long 1 (stackAt 0x100) =
      .error (.illegalAccess 0xFC 4) ((stackAt 0x100).lowered .long) := rfl
  exact ⟨⟨_, _, hpush, by decide⟩, _, hd, rfl, _, _, hexecute, by decide⟩

end Ia32
