import Ia32.Proofs.Replacement
import Mathlib.Data.Int.ModEq

/-!
# Addition and subtraction

A subtraction is an addition read backwards: its result and what is subtracted make up what it is
subtracted from.

* `Width.signed_cases`, `Width.fitsSigned_iff`: signs, and the integers that fit;
* `Alu.Carried`: two values and a carry that add up to a value and a carry;
  `Alu.Carried.overflow_iff`, `Alu.Carried.auxiliary_iff`: what its bits tell of it;
* `Alu.carried_add`, `Alu.carried_sub`: additions and subtractions are such;
* `Alu.Exact`: a result with the flags of exact arithmetic; `Alu.exact_add`, `Alu.exact_sub`;
* **`addition_exact`**: additions and subtractions are exact, and so are those of one, and from
  zero.
-/

set_option autoImplicit false

namespace Ia32

/-! ## Signs -/

namespace Width

variable {w : Width} {v : Long}

theorem sign_eq_msb (v : Long) : w.sign v = (v.setWidth w.bits).msb := by
  have hpos := w.bits_pos
  have hlt : w.bits - 1 < w.bits := by omega
  rw [sign_eq_getLsbD, BitVec.msb_eq_getLsbD_last, BitVec.getLsbD_setWidth]
  simp [hlt]

theorem signed_neg_iff (v : Long) : w.signed v < 0 ↔ w.sign v = true := by
  rw [signed, sign_eq_msb, BitVec.toInt_neg_iff, BitVec.msb_eq_true_iff_two_mul_ge]

theorem signed_modEq (v : Long) : w.signed v ≡ v.toNat [ZMOD 2 ^ w.bits] := by
  rw [signed, BitVec.toInt_setWidth]
  exact_mod_cast Int.bmod_emod

variable (hv : v.toNat < 2 ^ w.bits)

include hv

theorem signed_cases :
    w.sign v = false ∧ v.toNat < 2 ^ (w.bits - 1) ∧ w.signed v = v.toNat ∨
      w.sign v = true ∧ 2 ^ (w.bits - 1) ≤ v.toNat ∧ w.signed v = v.toNat - (2 ^ w.bits : Nat) := by
  have hcut : (v.setWidth w.bits).toNat = v.toNat := by
    rw [BitVec.toNat_setWidth, Nat.mod_eq_of_lt hv]
  rw [signed, sign_eq_msb, BitVec.toInt_eq_msb_cond, BitVec.msb_eq_decide, hcut]
  by_cases hhalf : 2 ^ (w.bits - 1) ≤ v.toNat
  · simp [hhalf]
  · simp [hhalf, Nat.lt_of_not_le hhalf]

/-- **An integer fits** if it is the number of the value that it leaves. -/
theorem fitsSigned_iff {n : Int} (h : n ≡ v.toNat [ZMOD 2 ^ w.bits]) :
    w.FitsSigned n ↔ w.signed v = n := by
  have htruncate : w.truncate n = v := by
    apply BitVec.eq_of_toNat_eq
    have hn := (w.toNat_truncate n).trans h
    rw [Int.emod_eq_of_lt (by omega) (by exact_mod_cast hv)] at hn
    exact_mod_cast hn
  rw [← signed_truncate_eq_iff, htruncate]

end Width

namespace Alu

/-! ## Sums with a carry -/

/-- Two values and a carry add up to a value and a carry. -/
structure Carried (w : Width) (x y : Long) (c : Bool) (z : Long) (out : Bool) : Prop where
  left : x.toNat < 2 ^ w.bits
  right : y.toNat < 2 ^ w.bits
  sum : z.toNat < 2 ^ w.bits
  eq : x.toNat + y.toNat + c.toNat = z.toNat + 2 ^ w.bits * out.toNat

section Carried

variable {w : Width} {x y z : Long} {c out : Bool} (h : Carried w x y c z out)

include h

/-- The sum has the sign of neither exactly if it is not the sum of the numbers with signs. -/
theorem Carried.overflow_iff : w.sign ((x ^^^ z) &&& (y ^^^ z)) = true ↔
    w.signed x + w.signed y + c.toNat ≠ w.signed z := by
  have hsign : w.sign ((x ^^^ z) &&& (y ^^^ z)) =
      ((w.sign x ^^ w.sign z) && (w.sign y ^^ w.sign z)) := by
    simp only [Width.sign_eq_getLsbD, BitVec.getLsbD_and, BitVec.getLsbD_xor]
  have hbits := w.two_pow_bits
  have hc := c.toNat_le
  obtain ⟨hbx, hby, hbz, heq⟩ := h
  have hx := Width.signed_cases hbx
  have hy := Width.signed_cases hby
  have hz := Width.signed_cases hbz
  rw [hsign]
  -- by the three signs and the carry; what is left is linear in the size and its half
  generalize 2 ^ w.bits = size at *
  generalize 2 ^ (w.bits - 1) = half at *
  rcases hx with ⟨hx, hlx, hnx⟩ | ⟨hx, hlx, hnx⟩ <;>
  rcases hy with ⟨hy, hly, hny⟩ | ⟨hy, hly, hny⟩ <;>
  rcases hz with ⟨hz, hlz, hnz⟩ | ⟨hz, hlz, hnz⟩ <;>
  rw [hx, hy, hz] <;> cases out <;> simp at heq ⊢ <;> omega

theorem Carried.exists_eq_add : ∃ n, x.toNat + y.toNat + c.toNat = z.toNat + 32 * n := by
  obtain ⟨n, hn⟩ : 32 ∣ 2 ^ w.bits * out.toNat :=
    dvd_mul_of_dvd_left (Nat.pow_dvd_pow 2 (by cases w <;> decide : 5 ≤ w.bits)) _
  exact ⟨n, hn ▸ h.eq⟩

theorem Carried.auxiliary_iff : (x ^^^ y ^^^ z).getLsbD auxiliaryBit = true ↔
    16 ≤ x.toNat % 16 + y.toNat % 16 + c.toNat := by
  have hodd : ∀ p q r : Bool, (p ^^ q ^^ r) = true ↔ (p.toNat + q.toNat + r.toNat) % 2 = 1 := by
    decide
  have hbit : ∀ v : Long, (v.getLsbD auxiliaryBit).toNat = v.toNat / 16 % 2 := fun v => by
    rw [← BitVec.testBit_toNat, Nat.toNat_testBit]
    rfl
  obtain ⟨n, heq⟩ := h.exists_eq_add
  have hc := c.toNat_le
  rw [BitVec.getLsbD_xor, BitVec.getLsbD_xor, hodd, hbit, hbit, hbit]
  omega

theorem Carried.modEq : (x.toNat + y.toNat + c.toNat : Int) ≡ z.toNat [ZMOD 2 ^ w.bits] := by
  have heq := congrArg (Nat.cast : Nat → Int) h.eq
  push_cast at heq
  rw [heq]
  exact Int.add_mul_emod_self_left _ _ _

end Carried

section Results

variable {w : Width} {a b : Long} (ha : a.toNat < 2 ^ w.bits) (hb : b.toNat < 2 ^ w.bits) (c : Bool)

include ha hb

theorem carried_add : Carried w a b c (add a b c w).1
    (decide (w.mask.toNat < a.toNat + b.toNat + c.toNat)) where
  left := ha
  right := hb
  sum := by
    rw [add, w.toNat_ofNat_and_mask]
    exact Nat.mod_lt _ (Nat.two_pow_pos _)
  eq := by
    have hc := c.toNat_le
    rw [add, w.toNat_ofNat_and_mask, w.toNat_mask]
    by_cases hcarry : 2 ^ w.bits ≤ a.toNat + b.toNat + c.toNat
    · have hlt : 2 ^ w.bits - 1 < a.toNat + b.toNat + c.toNat := by omega
      rw [Nat.mod_eq_sub_mod hcarry, Nat.mod_eq_of_lt (by omega)]
      simp only [hlt, decide_true, Bool.toNat_true]
      omega
    · have hge : ¬ 2 ^ w.bits - 1 < a.toNat + b.toNat + c.toNat := by omega
      rw [Nat.mod_eq_of_lt (by omega)]
      simp only [hge, decide_false, Bool.toNat_false]
      omega

omit ha hb in
theorem sub_eq_truncate :
    (sub a b c w).1 = w.truncate (a.toNat - b.toNat - c.toNat : Int) := by
  have hofInt : ∀ v : Long, BitVec.ofInt 32 v.toNat = v := fun v => by
    rw [BitVec.ofInt_natCast, BitVec.ofNat_toNat, BitVec.setWidth_eq]
  rw [sub, Width.truncate, Int.sub_eq_add_neg, Int.sub_eq_add_neg, BitVec.ofInt_add,
    BitVec.ofInt_add, BitVec.ofInt_neg, BitVec.ofInt_neg, hofInt, hofInt, BitVec.ofInt_natCast,
    BitVec.sub_eq_add_neg, BitVec.sub_eq_add_neg]

theorem carried_sub : Carried w (sub a b c w).1 b c a
    (decide (a.toNat < b.toNat + c.toNat)) where
  left := by
    rw [sub_eq_truncate]
    exact w.truncate_toNat_lt _
  right := hb
  sum := ha
  eq := by
    have hc := c.toNat_le
    have hsize : ((2 ^ w.bits : Nat) : Int) = 2 ^ w.bits := by push_cast; rfl
    have hres := w.toNat_truncate (a.toNat - b.toNat - c.toNat : Int)
    rw [← sub_eq_truncate, ← hsize] at hres
    by_cases hborrow : a.toNat < b.toNat + c.toNat
    · rw [← Int.add_emod_right, Int.emod_eq_of_lt (by omega) (by omega)] at hres
      simp only [hborrow, decide_true, Bool.toNat_true]
      omega
    · rw [Int.emod_eq_of_lt (by omega) (by omega)] at hres
      simp only [hborrow, decide_false, Bool.toNat_false]
      omega

end Results

/-! ## Exact results -/

/-- A result and the flags of exact arithmetic: `n` is what it is without signs, `s` what it is
with signs, and the carry stands for `weight`. -/
structure Exact (w : Width) (n s weight : Int) (auxiliary : Prop) (r : Long × FlagUpdate) :
    Prop where
  lt : r.1.toNat < 2 ^ w.bits
  carry : ∃ out : Bool, r.2.carry = some out ∧ r.1.toNat + weight * out.toNat = n
  overflow : ∃ out : Bool, r.2.overflow = some out ∧ (out = true ↔ ¬ w.FitsSigned s)
  auxiliary : ∃ out : Bool, r.2.auxiliary = some out ∧ (out = true ↔ auxiliary)
  zero : r.2.zero = some (decide (r.1 = 0))
  sign : r.2.sign = some (decide (w.signed r.1 < 0))
  parity : r.2.parity = some (evenParity r.1)

theorem ofResult_eq {w : Width} {v : Long} (hv : v.toNat < 2 ^ w.bits) :
    FlagUpdate.ofResult v w =
      { zero := some (decide (v = 0)), sign := some (decide (w.signed v < 0))
        parity := some (evenParity v) } := by
  have hsign : w.sign v = decide (w.signed v < 0) := by
    rw [Bool.eq_iff_iff, decide_eq_true_eq, Width.signed_neg_iff]
  rw [FlagUpdate.ofResult, Width.and_mask_of_lt hv, hsign]
  rfl

section Exact

variable {w : Width} {a b : Long} (ha : a.toNat < 2 ^ w.bits) (hb : b.toNat < 2 ^ w.bits) (c : Bool)

include ha hb

/-- **A sum is exact.** -/
theorem exact_add : Exact w (a.toNat + b.toNat + c.toNat) (w.signed a + w.signed b + c.toNat)
    (2 ^ w.bits) (16 ≤ a.toNat % 16 + b.toNat % 16 + c.toNat) (add a b c w) where
  lt := (carried_add ha hb c).sum
  carry := ⟨_, rfl, by exact_mod_cast (carried_add ha hb c).eq.symm⟩
  overflow := by
    have hmod := ((Width.signed_modEq (w := w) a).add (Width.signed_modEq b)).add_right c.toNat
    refine ⟨_, rfl, (carried_add ha hb c).overflow_iff.trans (not_congr ?_)⟩
    rw [Width.fitsSigned_iff (carried_add ha hb c).sum (hmod.trans (carried_add ha hb c).modEq)]
    exact eq_comm
  auxiliary := ⟨_, rfl, (carried_add ha hb c).auxiliary_iff⟩
  zero := congrArg FlagUpdate.zero (ofResult_eq (carried_add ha hb c).sum)
  sign := congrArg FlagUpdate.sign (ofResult_eq (carried_add ha hb c).sum)
  parity := congrArg FlagUpdate.parity (ofResult_eq (carried_add ha hb c).sum)

/-- **A difference is exact.** -/
theorem exact_sub : Exact w (a.toNat - b.toNat - c.toNat) (w.signed a - w.signed b - c.toNat)
    (-2 ^ w.bits) (a.toNat % 16 < b.toNat % 16 + c.toNat) (sub a b c w) where
  lt := (carried_sub ha hb c).left
  carry := by
    refine ⟨_, rfl, ?_⟩
    have heq := congrArg (Nat.cast : Nat → Int) (carried_sub ha hb c).eq
    push_cast at heq
    rw [Int.neg_mul]
    omega
  overflow := by
    have hbits : ((a ^^^ b) &&& (a ^^^ (sub a b c w).1)) =
        (((sub a b c w).1 ^^^ a) &&& (b ^^^ a)) := by
      rw [BitVec.and_comm, BitVec.xor_comm a, BitVec.xor_comm a]
    have hmod : w.signed a - w.signed b - c.toNat ≡ (sub a b c w).1.toNat [ZMOD 2 ^ w.bits] := by
      have hsum := (carried_sub ha hb c).modEq.symm
      have hdiff := ((Width.signed_modEq (w := w) a).sub (Width.signed_modEq b)).sub_right c.toNat
      refine hdiff.trans ?_
      have hback := (hsum.sub_right b.toNat).sub_right c.toNat
      rwa [add_right_comm, add_sub_cancel_right, add_sub_cancel_right] at hback
    refine ⟨_, rfl, ?_⟩
    change w.sign ((a ^^^ b) &&& (a ^^^ (sub a b c w).1)) = true ↔ _
    rw [hbits, (carried_sub ha hb c).overflow_iff,
      Width.fitsSigned_iff (carried_sub ha hb c).left hmod]
    omega
  auxiliary := by
    have hbits : a ^^^ b ^^^ (sub a b c w).1 = (sub a b c w).1 ^^^ b ^^^ a := by
      rw [BitVec.xor_comm a b, BitVec.xor_comm, ← BitVec.xor_assoc]
    refine ⟨_, rfl, ?_⟩
    change (a ^^^ b ^^^ (sub a b c w).1).getLsbD auxiliaryBit = true ↔ _
    rw [hbits, (carried_sub ha hb c).auxiliary_iff]
    obtain ⟨n, heq⟩ := (carried_sub ha hb c).exists_eq_add
    have hc := c.toNat_le
    omega
  zero := congrArg FlagUpdate.zero (ofResult_eq (carried_sub ha hb c).left)
  sign := congrArg FlagUpdate.sign (ofResult_eq (carried_sub ha hb c).left)
  parity := congrArg FlagUpdate.parity (ofResult_eq (carried_sub ha hb c).left)

end Exact

end Alu

/-! ## Operations -/

open Ia32.Action

theorem Action.read_neg (op : Operand) (w : Width) :
    (read op w >>= fun v => put op w (Alu.neg v w)) =
      read op w >>= fun v => put op w (Alu.sub 0 v false w) := by
  funext m
  cases hv : m.readOperand op w with
  | error e => rw [read_bind_error hv, read_bind_error hv]
  | ok v => rw [read_bind hv, read_bind hv, Alu.neg, Width.and_mask_of_lt (m.readOperand_lt hv)]

/-- **Additions and subtractions are exact**, with all flags. `inc` and `dec` are such, of one, but
keep the carry flag; `neg` is a subtraction from zero. -/
theorem addition_exact (w : Width) (a b : Long) (c : Bool) (ha : a.toNat < 2 ^ w.bits)
    (hb : b.toNat < 2 ^ w.bits) :
    Alu.Exact w (a.toNat + b.toNat + c.toNat) (w.signed a + w.signed b + c.toNat) (2 ^ w.bits)
      (16 ≤ a.toNat % 16 + b.toNat % 16 + c.toNat) (Alu.add a b c w) ∧
    Alu.Exact w (a.toNat - b.toNat - c.toNat) (w.signed a - w.signed b - c.toNat) (-2 ^ w.bits)
      (a.toNat % 16 < b.toNat % 16 + c.toNat) (Alu.sub a b c w) ∧
    ∀ op : Operand,
      execute ⟨.inc, w, [op]⟩ = keepCarry (execute ⟨.alu .add, w, [.imm 1, op]⟩) ∧
      execute ⟨.dec, w, [op]⟩ = keepCarry (execute ⟨.alu .sub, w, [.imm 1, op]⟩) ∧
      execute ⟨.unary .neg, w, [op]⟩ =
        read op w >>= fun v => put op w (Alu.sub 0 v false w) := by
  refine ⟨Alu.exact_add ha hb c, Alu.exact_sub ha hb c, fun op => ⟨?_, ?_, ?_⟩⟩
  · exact (replace_bind rfl Alu.inc).trans (replace_one (o := .add) (by decide) fun _ _ => rfl)
  · exact (replace_bind rfl Alu.dec).trans (replace_one (o := .sub) (by decide) fun _ _ => rfl)
  · exact (replace_bind rfl Alu.neg).trans (read_neg op w)

/-- The least and the largest byte with a carry: their sum is zero, their difference too small. -/
theorem addition_exact_leastLargest :
    (∃ out, (Alu.add 0x80 0x7F true .byte).2.overflow = some out ∧ ¬ out = true) ∧
      ∃ out, (Alu.sub 0x80 0x7F true .byte).2.overflow = some out ∧ out = true := by
  obtain ⟨hadd, hsub, -⟩ := addition_exact .byte 0x80 0x7F true (by decide) (by decide)
  obtain ⟨out, hout, hsum⟩ := hadd.overflow
  obtain ⟨out', hout', hdifference⟩ := hsub.overflow
  exact ⟨⟨out, hout, mt hsum.mp (by decide)⟩, out', hout', hdifference.mpr (by decide)⟩

end Ia32
