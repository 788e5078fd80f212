import Ia32.Proofs.Flags
import Ia32.Proofs.Stack

/-!
# Saved flags

* `Flags.eq_of_get`: flags by their names; `Flags.ofBits_merge`: the low bits of a register hold
  all flags of it;
* `Action.popFlags_ok`: `popf` with the flags on the stack;
* `Flags.get_sahfFlags`, `Machine.getLsbD_ah_of_lahf`: what `sahf` takes, and what `lahf` leaves;
* **`saved_flags_return`**: `popf` brings back what `pushf` has saved, and `sahf` what `lahf` has.
-/

set_option autoImplicit false

namespace Ia32

/-! ## Flags by their bits -/

theorem Flag.bit_lt_bits (flag : Flag) {w : Width} (hw : w ≠ .byte) : flag.bit < w.bits := by
  cases w with
  | byte => exact absurd rfl hw
  | word | long => cases flag <;> decide

namespace Flags

theorem eq_of_get {f g : Flags} (h : ∀ flag, f.get flag = g.get flag) : f = g := by
  rcases f with ⟨_, _, _, _, _, _, _, _, _⟩
  rcases g with ⟨_, _, _, _, _, _, _, _, _⟩
  rw [mk.injEq]
  exact ⟨h .carry, h .parity, h .auxiliary, h .zero, h .sign, h .trap, h .interrupt,
    h .direction, h .overflow⟩

/-- **The low bits of a register hold all flags of it**, whatever is above them. -/
theorem ofBits_merge (f g : Flags) {w : Width} (hw : w ≠ .byte) :
    ofBits ((f.bits &&& ~~~w.mask) ||| (g.bits &&& w.mask)) = g := by
  refine eq_of_get fun flag => ?_
  rw [get_ofBits, BitVec.getLsbD_or, BitVec.getLsbD_and, BitVec.getLsbD_and, BitVec.getLsbD_not,
    Width.getLsbD_mask, getLsbD_bits_bit g, decide_eq_true (flag.bit_lt_bits hw), Bool.not_true,
    Bool.and_false, Bool.and_false, Bool.false_or, Bool.and_true]

/-- The flags that `lahf` and `sahf` move. -/
def ofAh : List Flag := [.sign, .zero, .auxiliary, .parity, .carry]

theorem get_sahfFlags (ah : Long) (f : Flags) (flag : Flag) :
    (Action.sahfFlags ah f).get flag =
      if flag ∈ ofAh then ah.getLsbD flag.bit else f.get flag := by
  cases flag <;> rfl

end Flags

/-! ## `pushf` and `popf` -/

namespace Action

open Machine

variable {w : Width} {m m₁ m' : Machine} {f : Flags}

theorem popFlags_ok (hw : w ≠ .byte)
    (h : m.memory.read (m.get .esp) w = .ok (f.bits &&& w.mask)) :
    popFlags w m = .ok () { m.raised w with flags := f } := by
  have hpop : pop w m = .ok (f.bits &&& w.mask) (m.raised w) := pop_ok_iff.mpr ⟨h, rfl⟩
  refine ok_bind_iff.mpr ⟨_, _, hpop, ?_⟩
  change EStateM.Result.ok () { m.raised w with
    flags := .ofBits (((m.raised w).flags.bits &&& ~~~w.mask) ||| (f.bits &&& w.mask)) } = _
  rw [Flags.ofBits_merge _ f hw]

/-- **`popf` undoes `pushf`**, as long as the stack pointer and memory stay as they were. -/
theorem popFlags_after_pushFlags (hw : w ≠ .byte) {u : Unit} (h : pushFlags w m = .ok u m₁)
    (hesp : m'.get .esp = m₁.get .esp) (hmemory : m'.memory = m₁.memory) :
    popFlags w m' = .ok () { m'.raised w with flags := m.flags } ∧
      (m'.raised w).get .esp = m.get .esp := by
  obtain ⟨_, ⟨⟩, hpush⟩ := looks_get.ok_bind h
  constructor
  · refine popFlags_ok hw ?_
    rw [hesp, hmemory]
    exact read_of_push hpush
  · rw [get_raised, hesp, get_esp_of_push hpush, BitVec.sub_add_cancel]

end Action

/-! ## `lahf` and `sahf` -/

/-- **What `lahf` leaves**: the low byte of the register, which has nothing in bits 3 and 5. -/
theorem Machine.getLsbD_ah_of_lahf (m : Machine) (k : Nat) :
    ((m.set .ah (m.flags.bits &&& Action.lahfMask)).get .ah).getLsbD k =
      (m.flags.bits.getLsbD k && Action.lahfMask.getLsbD k) := by
  have hmask : Action.lahfMask &&& Reg.ah.width.mask = Action.lahfMask := by decide
  rw [get, set, Registers.get_set_self, BitVec.and_assoc, hmask, BitVec.getLsbD_and]

theorem getLsbD_lahfMask : ∀ flag ∈ Flags.ofAh, Action.lahfMask.getLsbD flag.bit = true := by
  decide

/-! ## Main result -/

/-- **Saved flags come back.** If `pushf` on words or longs succeeds, so does `popf` of that width,
whatever has become of the flags and the registers, if the stack pointer and memory are as `pushf`
left them. It brings back the flags register bit for bit and the stack pointer, and changes nothing
else. `lahf` always leaves bit 1 of `ah` set, and bits 3 and 5 clear, and `sahf` brings back the
five flags that are there, if `ah` is as `lahf` left it, and changes nothing else. -/
theorem saved_flags_return (m : Machine) :
    (∀ w : Width, w ≠ .byte → ∀ m₁ m' : Machine,
      Action.execute ⟨.plain .pushf, w, []⟩ m = .ok true m₁ →
      m'.get .esp = m₁.get .esp → m'.memory = m₁.memory →
      ∃ m₂, Action.execute ⟨.plain .popf, w, []⟩ m' = .ok true m₂ ∧
        m₂.flags.bits = m.flags.bits ∧ m₂.get .esp = m.get .esp ∧
        m'.SameRegisters m₂ ∧ m'.SameControl m₂ ∧ m₂.memory = m'.memory) ∧
    ∀ w : Width, ∃ m₁, Action.execute ⟨.plain .lahf, w, []⟩ m = .ok true m₁ ∧
      (m₁.get .ah).getLsbD 1 = true ∧ (m₁.get .ah).getLsbD 3 = false ∧
      (m₁.get .ah).getLsbD 5 = false ∧
      ∀ (w' : Width) (m' : Machine), m'.get .ah = m₁.get .ah →
        ∃ f : Flags, Action.execute ⟨.plain .sahf, w', []⟩ m' = .ok true { m' with flags := f } ∧
          ∀ flag, f.get flag =
            if flag ∈ [Flag.sign, .zero, .auxiliary, .parity, .carry] then m.flags.get flag
            else m'.flags.get flag := by
  refine ⟨fun w hw m₁ m' h hesp hmemory => ?_, fun w => ?_⟩
  · obtain ⟨_, _, hpush, ⟨⟩⟩ := Action.ok_bind_iff.mp h
    obtain ⟨hpop, hback⟩ := Action.popFlags_after_pushFlags hw hpush hesp hmemory
    exact ⟨_, Action.ok_bind_iff.mpr ⟨_, _, hpop, rfl⟩, rfl, hback,
      Machine.sameRegisters_set_esp _ _, ⟨⟨rfl, rfl⟩, rfl⟩, rfl⟩
  · refine ⟨_, rfl, ?_, ?_, ?_, fun w' m' hah => ⟨_, rfl, fun flag => ?_⟩⟩
    · rw [Machine.getLsbD_ah_of_lahf, m.flags.isRegister_bits.reserved]
      decide
    · rw [Machine.getLsbD_ah_of_lahf, show Action.lahfMask.getLsbD 3 = false by decide,
        Bool.and_false]
    · rw [Machine.getLsbD_ah_of_lahf, show Action.lahfMask.getLsbD 5 = false by decide,
        Bool.and_false]
    · rw [Flags.get_sahfFlags, hah, Machine.getLsbD_ah_of_lahf]
      refine if_ctx_congr Iff.rfl (fun hflag => ?_) fun _ => rfl
      rw [getLsbD_lahfMask flag hflag, Bool.and_true, Flags.getLsbD_bits_bit]

/-- A machine of 16 bytes with an empty stack and two flags set. -/
def flagged : Machine :=
  { memory := .zeros 16, flags := { carry := true, overflow := true } : Machine }.set .esp 16

/-- `flagged` after `pushf` on words. -/
def flaggedSaved : Machine :=
  { flagged.set .esp 14 with memory := flagged.memory.store 14 [0x03, 0x08] }

/-- Both flags come back from a word, though all flags have been cleared but one. -/
theorem saved_flags_return_flagged :
    Action.execute ⟨.plain .pushf, .word, []⟩ flagged = .ok true flaggedSaved ∧
    ∃ m₂, Action.execute ⟨.plain .popf, .word, []⟩
        { flaggedSaved with flags := { zero := true } } = .ok true m₂ ∧
      m₂.flags.bits = 0x803 ∧ m₂.get .esp = 16 := by
  have hpushf : Action.execute ⟨.plain .pushf, .word, []⟩ flagged = .ok true flaggedSaved := by
    rfl
  obtain ⟨m₂, hpopf, hbits, hesp, -⟩ := (saved_flags_return flagged).1 .word (by decide)
    flaggedSaved { flaggedSaved with flags := { zero := true } } hpushf rfl rfl
  exact ⟨hpushf, m₂, hpopf, hbits, hesp⟩

end Ia32
