import Ia32.Proofs.Addition

/-!
# Comparisons

A comparison and the conditional jump after it decide how two values compare, with signs and
without.

* `Cond.Compares`: what each condition asks of two values;
* `Alu.Carried.less_iff`: when the sign of a difference is right;
* `Flags.Compared`: the flags tell how two values compare; **`Flags.compared_sub`**: those of a
  difference do;
* `Flags.Compared.holds_iff`: conditions that look at such flags;
* `Action.execute_jcc`: a conditional jump;
* **`jump_after_comparison`**: a comparison, then a jump.
-/

set_option autoImplicit false

namespace Ia32

variable {w : Width} {a b : Long} {f : Flags}

/-! ## What conditions ask -/

/-- The difference of two values, cut down to a width. -/
def Width.difference (w : Width) (a b : Long) : Long := w.truncate (a.toNat - b.toNat : Int)

/-- What a condition asks of two values that have been compared. -/
def Cond.Compares (w : Width) (a b : Long) : Cond → Prop
  | ⟨.overflow, false⟩ => ¬ w.FitsSigned (w.signed a - w.signed b)
  | ⟨.overflow, true⟩ => w.FitsSigned (w.signed a - w.signed b)
  | ⟨.below, false⟩ => a.toNat < b.toNat
  | ⟨.below, true⟩ => a.toNat ≥ b.toNat
  | ⟨.equal, false⟩ => a = b
  | ⟨.equal, true⟩ => a ≠ b
  | ⟨.belowOrEqual, false⟩ => a.toNat ≤ b.toNat
  | ⟨.belowOrEqual, true⟩ => a.toNat > b.toNat
  | ⟨.sign, false⟩ => w.signed (w.difference a b) < 0
  | ⟨.sign, true⟩ => w.signed (w.difference a b) ≥ 0
  | ⟨.parity, false⟩ => evenParity (w.difference a b) = true
  | ⟨.parity, true⟩ => evenParity (w.difference a b) = false
  | ⟨.less, false⟩ => w.signed a < w.signed b
  | ⟨.less, true⟩ => w.signed a ≥ w.signed b
  | ⟨.lessOrEqual, false⟩ => w.signed a ≤ w.signed b
  | ⟨.lessOrEqual, true⟩ => w.signed a > w.signed b

theorem Cond.compares_negated (t : CondTest) :
    Compares w a b ⟨t, true⟩ ↔ ¬ Compares w a b ⟨t, false⟩ := by
  cases t <;> simp [Compares]

/-! ## Differences -/

theorem Width.signed_inj (ha : a.toNat < 2 ^ w.bits) (hb : b.toNat < 2 ^ w.bits) :
    w.signed a = w.signed b ↔ a = b := by
  have hbits := w.two_pow_bits
  rw [← BitVec.toNat_inj]
  rcases Width.signed_cases ha with ⟨-, hla, hna⟩ | ⟨-, hla, hna⟩ <;>
  rcases Width.signed_cases hb with ⟨-, hlb, hnb⟩ | ⟨-, hlb, hnb⟩ <;> omega

namespace Alu

section Carried

variable {x y z : Long} {out : Bool} (h : Carried w x y false z out)

include h

theorem Carried.eq_zero_iff : x = 0 ↔ z = y := by
  have hx : x = 0 ↔ x.toNat = 0 := by rw [← BitVec.toNat_inj]; rfl
  obtain ⟨hbx, hby, hbz, heq⟩ := h
  rw [hx, ← BitVec.toNat_inj]
  cases out <;> simp at heq <;> omega

/-- The sign of a difference is wrong exactly if the difference does not fit. -/
theorem Carried.less_iff :
    (w.signed x < 0 ↔ w.FitsSigned (w.signed z - w.signed y)) ↔ w.signed z < w.signed y := by
  have hbits := w.two_pow_bits
  have hhalf : ((2 ^ (w.bits - 1) : Nat) : Int) = 2 ^ (w.bits - 1) := by push_cast; rfl
  obtain ⟨hbx, hby, hbz, heq⟩ := h
  have hx := Width.signed_cases hbx
  have hy := Width.signed_cases hby
  have hz := Width.signed_cases hbz
  rw [Width.FitsSigned, ← hhalf]
  generalize 2 ^ w.bits = size at *
  generalize 2 ^ (w.bits - 1) = half at *
  rcases hx with ⟨-, hlx, hnx⟩ | ⟨-, hlx, hnx⟩ <;>
  rcases hy with ⟨-, hly, hny⟩ | ⟨-, hly, hny⟩ <;>
  rcases hz with ⟨-, hlz, hnz⟩ | ⟨-, hlz, hnz⟩ <;>
  cases out <;> simp at heq <;> omega

end Carried

end Alu

/-! ## Flags -/

namespace Flags

/-- The flags tell how two values compare. -/
structure Compared (w : Width) (a b : Long) (f : Flags) : Prop where
  carry : f.carry = true ↔ a.toNat < b.toNat
  zero : f.zero = true ↔ a = b
  overflow : f.overflow = true ↔ ¬ w.FitsSigned (w.signed a - w.signed b)
  sign : f.sign = true ↔ w.signed (w.difference a b) < 0
  parity : f.parity = evenParity (w.difference a b)
  less : (f.sign != f.overflow) = true ↔ w.signed a < w.signed b

section Difference

variable (ha : a.toNat < 2 ^ w.bits) (hb : b.toNat < 2 ^ w.bits)

include ha hb

/-- **The flags of a difference** tell how the two values compare. -/
theorem compared_sub (f : Flags) : Compared w a b ((Alu.sub a b false w).2.apply f) := by
  have hdifference : (Alu.sub a b false w).1 = w.difference a b := by
    simp [Alu.sub_eq_truncate, Width.difference]
  have hcarried := Alu.carried_sub ha hb false
  have hexact := Alu.exact_sub ha hb false
  obtain ⟨overflow, hoverflow, hfits⟩ := hexact.overflow
  have hzero := hexact.zero
  have hsign := hexact.sign
  have hparity := hexact.parity
  rw [hdifference] at hcarried hzero hsign hparity
  rw [Bool.toNat_false, Nat.cast_zero, Int.sub_zero] at hfits
  constructor
  · simp [FlagUpdate.apply, Alu.sub]
  · simp only [FlagUpdate.apply, hzero, Option.getD_some, decide_eq_true_eq]
    exact hcarried.eq_zero_iff
  · simp [FlagUpdate.apply, hoverflow, hfits]
  · simp [FlagUpdate.apply, hsign]
  · simp [FlagUpdate.apply, hparity]
  · rw [← hcarried.less_iff, ← not_not (a := w.FitsSigned _), ← hfits]
    by_cases hneg : w.signed (w.difference a b) < 0 <;> cases overflow <;>
      simp [FlagUpdate.apply, hsign, hoverflow, hneg]

theorem Compared.holds_iff (h : Compared w a b f) (c : Cond) :
    c.holds f = true ↔ c.Compares w a b := by
  obtain ⟨t, negated⟩ := c
  have htest : t.holds f = true ↔ Cond.Compares w a b ⟨t, false⟩ := by
    cases t with
    | overflow => exact h.overflow
    | below => exact h.carry
    | equal => exact h.zero
    | belowOrEqual =>
      rw [CondTest.holds, Bool.or_eq_true, h.carry, h.zero, Cond.Compares, Nat.le_iff_lt_or_eq,
        BitVec.toNat_inj]
    | sign => exact h.sign
    | parity => exact iff_of_eq (congrArg (· = true) h.parity)
    | less => exact h.less
    | lessOrEqual =>
      rw [CondTest.holds, Bool.or_eq_true, h.less, h.zero, Cond.Compares, Int.le_iff_lt_or_eq,
        Width.signed_inj ha hb, or_comm]
  cases negated with
  | false => rw [← htest, Cond.holds, Bool.bne_false]
  | true => rw [Cond.compares_negated, ← htest, Cond.holds, Bool.bne_true, Bool.not_eq_true',
      Bool.not_eq_true]

end Difference

end Flags

/-! ## Jumps -/

namespace Action

variable {m : Machine} {target : Operand} {t : Long}

/-- **A conditional jump** goes to its target or changes nothing. -/
theorem execute_jcc (c : Cond) (v : Width) (ht : m.readOperand target .long = .ok t) :
    execute ⟨.jcc c, v, [target]⟩ m = .ok true (if c.holds m.flags then m.setEip t else m) := by
  have hdst : (⟨.jcc c, v, [target]⟩ : Instr).destination = pure target :=
    Instr.destination_eq rfl
  change EStateM.bind (jumpIf c ⟨.jcc c, v, [target]⟩) _ m = _
  unfold EStateM.bind
  rw [jumpIf_eq, jump, hdst, pure_bind, read_bind ht]
  cases c.holds m.flags <;> rfl

end Action

open Ia32.Action

/-- **A comparison and a jump.** The comparison sets flags alone. A conditional jump then goes to
its target if the two values compare as it asks, and changes nothing if not. -/
theorem jump_after_comparison {m : Machine} {src dst : Operand}
    (hb : m.readOperand src w = .ok b) (ha : m.readOperand dst w = .ok a) :
    ∃ m', execute ⟨.alu .cmp, w, [src, dst]⟩ m = .ok true m' ∧
      m' = { m with flags := m'.flags } ∧
      ∀ (c : Cond) (v : Width) (target : Operand) (t : Long),
        m'.readOperand target .long = .ok t →
          (c.Compares w a b → execute ⟨.jcc c, v, [target]⟩ m' = .ok true (m'.setEip t)) ∧
          (¬ c.Compares w a b → execute ⟨.jcc c, v, [target]⟩ m' = .ok true m') := by
  have hcompared := Flags.compared_sub (m.readOperand_lt ha) (m.readOperand_lt hb) m.flags
  refine ⟨_, execute_cmp hb ha, rfl, fun c v target t ht => ?_⟩
  rw [execute_jcc c v ht, ← hcompared.holds_iff (m.readOperand_lt ha) (m.readOperand_lt hb) c]
  exact ⟨fun hholds => by rw [if_pos hholds], fun hholds => by rw [if_neg hholds]⟩

/-- A machine with the least number with a sign in `al`. -/
def leastNumber : Machine where
  registers := { general := #v[0x80, 0, 0, 0, 0, 0, 0, 0] }
  memory := .zeros 0

/-- The least number is less than one, but not below it without signs. -/
theorem jump_after_comparison_leastNumber :
    ∃ m', execute ⟨.alu .cmp, .byte, [.imm 1, .reg .al]⟩ leastNumber = .ok true m' ∧
      execute ⟨.jcc ⟨.less, false⟩, .long, [.imm 0x10]⟩ m' = .ok true (m'.setEip 0x10) ∧
      execute ⟨.jcc ⟨.overflow, false⟩, .long, [.imm 0x10]⟩ m' = .ok true (m'.setEip 0x10) ∧
      execute ⟨.jcc ⟨.below, false⟩, .long, [.imm 0x10]⟩ m' = .ok true m' := by
  have hone : leastNumber.readOperand (.imm 1) .byte = .ok 1 := by decide +kernel
  have hleast : leastNumber.readOperand (.reg .al) .byte = .ok 0x80 := by decide +kernel
  obtain ⟨m', hcmp, -, hjump⟩ := jump_after_comparison hone hleast
  have hjump (c : Cond) := hjump c .long (.imm 0x10) 0x10 rfl
  exact ⟨m', hcmp, (hjump _).1 (show _ < _ by decide), (hjump _).1 (show ¬ _ by decide),
    (hjump _).2 (show ¬ _ < _ by decide)⟩

end Ia32
