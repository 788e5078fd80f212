import Ia32.Proofs.Footprint

/-!
# Numbers in two halves

Multiplication and division work on a number of twice a width, in the accumulator and the register
beside it.

* `Width.FitsSigned`: the integers that are numbers with signs of a width;
  **`Width.signed_truncate_eq_iff`**: they are those that truncation leaves as they are;
* `Action.halves_disjoint`: the two halves share no bit of a register;
* `Machine.pair`, `Machine.signedPair`: the number in the two halves, without a sign and with one;
* `Machine.withHalves`, `Machine.pair_withHalves`: a machine that is given two halves;
* `Machine.readOperand_lt`: an operand has a value of its width;
* `Action.execute_unary`, `Action.read_bind`: operations with an operand that can be read.
-/

set_option autoImplicit false

namespace Ia32

/-! ## Numbers with signs -/

namespace Width

/-- An integer is a number with a sign of the width. -/
def FitsSigned (w : Width) (n : Int) : Prop := -2 ^ (w.bits - 1) ≤ n ∧ n < 2 ^ (w.bits - 1)

instance (w : Width) (n : Int) : Decidable (w.FitsSigned n) := inferInstanceAs (Decidable (_ ∧ _))

variable (w : Width)

theorem two_pow_bits : 2 ^ w.bits = 2 * 2 ^ (w.bits - 1) := by
  cases w <;> rfl

theorem toNat_ofNat_and_mask (n : Nat) :
    (BitVec.ofNat 32 n &&& w.mask).toNat = n % 2 ^ w.bits := by
  rw [toNat_and_mask, BitVec.toNat_ofNat]
  exact Nat.mod_mod_of_dvd n (Nat.pow_dvd_pow 2 w.bits_le)

theorem fitsSigned_signed (v : Long) : w.FitsSigned (w.signed v) :=
  ⟨BitVec.le_toInt _, BitVec.toInt_lt⟩

theorem abs_signed_le (v : Long) : |w.signed v| ≤ 2 ^ (w.bits - 1) :=
  abs_le.mpr ⟨(w.fitsSigned_signed v).1, (w.fitsSigned_signed v).2.le⟩

theorem signed_truncate (n : Int) : w.signed (w.truncate n) = n.bmod (2 ^ w.bits) := by
  rw [signed, BitVec.toInt_setWidth, toNat_truncate]
  exact_mod_cast Int.emod_bmod n (2 ^ w.bits)

/-- **The integers that truncation leaves as they are**, read with their signs. -/
theorem signed_truncate_eq_iff {n : Int} : w.signed (w.truncate n) = n ↔ w.FitsSigned n := by
  constructor
  · intro h
    rw [← h]
    exact w.fitsSigned_signed _
  · rintro ⟨hle, hlt⟩
    have hbits : ((2 ^ w.bits : Nat) : Int) = 2 * 2 ^ (w.bits - 1) := by
      rw [two_pow_bits]
      push_cast
      rfl
    rw [signed_truncate]
    exact Int.bmod_eq_of_le_mul_two (by omega) (by omega)

variable {w} {v : Long} (hv : v.toNat < 2 ^ w.bits)

include hv

theorem and_mask_of_lt : v &&& w.mask = v := by
  apply BitVec.eq_of_toNat_eq
  rw [w.toNat_and_mask, Nat.mod_eq_of_lt hv]

theorem signed_eq_zero_iff : w.signed v = 0 ↔ v = 0 := by
  rw [signed, ← BitVec.toInt_zero (w := w.bits), BitVec.toInt_inj]
  constructor
  · intro h
    have h := congrArg BitVec.toNat h
    rw [BitVec.toNat_setWidth, Nat.mod_eq_of_lt hv] at h
    exact BitVec.eq_of_toNat_eq h
  · rintro rfl
    exact BitVec.setWidth_zero _ _

end Width

/-! ## The halves -/

namespace Action

theorem width_halves (w : Width) : (halves w).1.width = w ∧ (halves w).2.width = w := by
  cases w <;> exact ⟨rfl, rfl⟩

theorem halves_disjoint {w : Width} {slot : Fin 8} {k : Nat} (h : (halves w).1.Shows slot k) :
    ¬ (halves w).2.Shows slot k := by
  rintro ⟨hslot, hle, -⟩
  obtain ⟨rfl, -, hlt⟩ := h
  cases w with
  | byte => exact Nat.not_le_of_lt hlt hle
  | word | long => cases hslot

end Action

namespace Machine

open Ia32.Action

variable (m : Machine) (w : Width)

/-- The number in the two halves. -/
def pair : Nat := (m.get (halves w).2).toNat * 2 ^ w.bits + (m.get (halves w).1).toNat

/-- The number in the two halves, read as a two's complement number of twice the width. -/
def signedPair : Int := (BitVec.ofNat (2 * w.bits) (m.pair w)).toInt

/-- The machine with the two halves of a number. -/
def withHalves (low high : Long) : Machine := (m.set (halves w).1 low).set (halves w).2 high

variable {w} (low high : Long)

theorem get_low_withHalves : (m.withHalves w low high).get (halves w).1 = low &&& w.mask := by
  have hset := m.registers.get_set_self (halves w).1 low
  rw [(width_halves w).1] at hset
  exact (Registers.get_set_of_disjoint (fun _ _ => halves_disjoint) _ _).trans hset

theorem get_high_withHalves : (m.withHalves w low high).get (halves w).2 = high &&& w.mask := by
  have hset := (m.set (halves w).1 low).registers.get_set_self (halves w).2 high
  rwa [(width_halves w).2] at hset

theorem pair_withHalves : (m.withHalves w low high).pair w =
    high.toNat % 2 ^ w.bits * 2 ^ w.bits + low.toNat % 2 ^ w.bits := by
  rw [pair, get_low_withHalves, get_high_withHalves, w.toNat_and_mask, w.toNat_and_mask]

theorem within_withHalves {F : Footprint} (h : {(halves w).1, (halves w).2} ⊆ F.registers) :
    m.Within F (m.withHalves w low high) :=
  (within_set (h (by simp)) low).trans (within_set (h (by simp)) high)

theorem get_lt {r : Reg} (hr : r.width = w) : (m.get r).toNat < 2 ^ w.bits := by
  rw [get, ← m.registers.get_and_mask, hr, w.toNat_and_mask]
  exact Nat.mod_lt _ (Nat.two_pow_pos _)

theorem readOperand_lt {op : Operand} {v : Long} (h : m.readOperand op w = .ok v) :
    v.toNat < 2 ^ w.bits := by
  cases op with
  | reg r =>
    cases h
    rw [w.toNat_and_mask]
    exact Nat.mod_lt _ (Nat.two_pow_pos _)
  | imm n =>
    cases h
    exact w.truncate_toNat_lt n
  | mem ref =>
    change m.memory.read _ w = _ at h
    rw [Memory.read] at h
    split at h
    · cases h
      refine lt_of_lt_of_le (toNat_ofLittleEndian_lt _) (Nat.pow_le_pow_right (by decide) ?_)
      refine Nat.mul_le_mul_left 8 ?_
      rw [Memory.window, Array.length_toList, Array.size_extract]
      omega
    · cases h
  | label name => cases h

theorem pair_lt : m.pair w < 2 ^ (2 * w.bits) := by
  have hlow := m.get_lt (width_halves w).1
  have hhigh := m.get_lt (width_halves w).2
  calc m.pair w < (m.get (halves w).2).toNat * 2 ^ w.bits + 2 ^ w.bits :=
        Nat.add_lt_add_left hlow _
    _ = ((m.get (halves w).2).toNat + 1) * 2 ^ w.bits := (Nat.succ_mul _ _).symm
    _ ≤ 2 ^ w.bits * 2 ^ w.bits := Nat.mul_le_mul_right _ hhigh
    _ = 2 ^ (2 * w.bits) := by rw [← pow_add, Nat.two_mul]

end Machine

namespace Action

variable {m : Machine} {w : Width} {op : Operand} {v : Long}

/-! ## Operations -/

theorem execute_unary (o : UnaryOp) (ops : List Operand) (m : Machine) :
    execute ⟨.unary o, w, ops⟩ m =
      match unary o ⟨.unary o, w, ops⟩ m with
      | .ok _ m' => .ok true m'
      | .error f m' => .error f m' := by
  rw [execute_eq rfl]
  change EStateM.bind (unary o ⟨.unary o, w, ops⟩) (fun _ => pure true) m = _
  unfold EStateM.bind
  cases unary o ⟨.unary o, w, ops⟩ m <;> rfl

theorem read_bind {α : Type} (hv : m.readOperand op w = .ok v) (k : Long → Action α) :
    (read op w >>= k) m = k v m := by
  change EStateM.bind (read op w) k m = _
  unfold EStateM.bind
  rw [read_ok_iff.mpr ⟨hv, rfl⟩]

end Action

end Ia32
