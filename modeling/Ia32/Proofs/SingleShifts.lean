import Ia32.Machine.Alu
import Ia32.Proofs.WideShift
import Mathlib.Logic.Function.Iterate

/-!
# Shifts one place at a time

* `rotateRight_add`, `rotateLeft_add`: a rotation by a sum of counts is one rotation after another;
* `Alu.shiftBits_succ`: the step from a count to the next: one more place;
* `Alu.shiftOnce`: a shift by one place, of a value and a carry; `Alu.iterate_shiftOnce`: so many of
  them;
* **`shift_eq_iterate`**: a shift by a count gives the result and the carry of so many shifts by one
  place, and sets no flags but those that it should.
-/

set_option autoImplicit false

namespace Ia32

/-! ## Rotations -/

section Rotate

variable {n : Nat} (x : BitVec n)

theorem getLsbD_rotateRight_mod (r : Nat) {i : Nat} (hi : i < n) :
    (x.rotateRight r).getLsbD i = x.getLsbD ((i + r) % n) := by
  have hr : r % n < n := Nat.mod_lt _ (by omega)
  rw [BitVec.getLsbD_rotateRight, ← Nat.add_mod_mod]
  by_cases hlt : i < n - r % n
  · have hplace : (i + r % n) % n = r % n + i := by
      rw [Nat.mod_eq_of_lt (by omega), Nat.add_comm]
    simp [hlt, hplace]
  · have hplace : (i + r % n) % n = i - (n - r % n) := by
      rw [Nat.mod_eq_sub_mod (by omega), Nat.mod_eq_of_lt (by omega)]
      omega
    simp [hlt, hplace, hi]

theorem rotateLeft_eq_rotateRight (r : Nat) : x.rotateLeft r = x.rotateRight (n - r % n) := by
  apply BitVec.eq_of_getLsbD_eq
  intro i hi
  have hr : r % n < n := Nat.mod_lt _ (by omega)
  rw [getLsbD_rotateRight_mod x _ hi, BitVec.getLsbD_rotateLeft]
  by_cases hlt : i < r % n
  · have hplace : (i + (n - r % n)) % n = n - r % n + i := by
      rw [Nat.mod_eq_of_lt (by omega), Nat.add_comm]
    simp [hlt, hplace]
  · have hplace : (i + (n - r % n)) % n = i - r % n := by
      rw [Nat.mod_eq_sub_mod (by omega), Nat.mod_eq_of_lt (by omega)]
      omega
    simp [hlt, hplace, hi]

theorem rotateRight_congr {r s : Nat} (h : r % n = s % n) : x.rotateRight r = x.rotateRight s := by
  rw [← BitVec.rotateRight_mod_eq_rotateRight, h, BitVec.rotateRight_mod_eq_rotateRight]

theorem rotateRight_add (r s : Nat) :
    x.rotateRight (r + s) = (x.rotateRight r).rotateRight s := by
  apply BitVec.eq_of_getLsbD_eq
  intro i hi
  have hlt : (i + s) % n < n := Nat.mod_lt _ (by omega)
  rw [getLsbD_rotateRight_mod x _ hi, getLsbD_rotateRight_mod _ s hi,
    getLsbD_rotateRight_mod x r hlt, Nat.mod_add_mod, Nat.add_assoc, Nat.add_comm s r]

theorem rotateLeft_add (r s : Nat) : x.rotateLeft (r + s) = (x.rotateLeft r).rotateLeft s := by
  rcases Nat.eq_zero_or_pos n with rfl | hn
  · exact Subsingleton.elim _ _
  have hr : r % n < n := Nat.mod_lt _ hn
  have hs : s % n < n := Nat.mod_lt _ hn
  rw [rotateLeft_eq_rotateRight, rotateLeft_eq_rotateRight x r, rotateLeft_eq_rotateRight,
    ← rotateRight_add]
  apply rotateRight_congr
  -- the places that are missing from the sum are those missing from both, less a full turn
  rw [Nat.add_mod r s n]
  by_cases hsum : r % n + s % n < n
  · rw [Nat.mod_eq_of_lt hsum,
      show n - r % n + (n - s % n) = n - (r % n + s % n) + n by omega, Nat.add_mod_right]
  · have hmod : (r % n + s % n) % n = r % n + s % n - n := by
      rw [Nat.mod_eq_sub_mod (by omega), Nat.mod_eq_of_lt (by omega)]
    rw [hmod, show n - (r % n + s % n - n) = n - r % n + (n - s % n) by omega]

end Rotate

namespace Alu

/-! ## One more place -/

/-- **A shift by one place more** is a shift, and then one by one place. -/
theorem shiftBits_succ {n : Nat} (hn : 0 < n) (op : ShiftOp) (x : BitVec n) (carry : Bool)
    (k : Nat) : shiftBits op x (k + 1) carry =
      let r := shiftBits op x k carry
      shiftBits op r.1 1 r.2 := by
  cases op with
  | shl | sal =>
    simp only [shiftBits, BitVec.shiftLeft_add, BitVec.getLsbD_shiftLeft, Prod.mk.injEq, true_and]
    by_cases hle : k + 1 ≤ n
    · have hlt : ¬ n - 1 < k := by omega
      simp [hle, hlt, Nat.sub_add_eq, Nat.sub_right_comm n k 1, hn, Nat.succ_le_of_lt hn]
    · have hlt : n - 1 < k := by omega
      simp [hle, hlt]
  | shr =>
    simp [shiftBits, BitVec.shiftRight_add]
  | sar =>
    simp [shiftBits, BitVec.sshiftRight_add]
  | rol =>
    simp [shiftBits, rotateLeft_add]
  | ror =>
    simp only [shiftBits, rotateRight_add]
  | rcl =>
    simp only [shiftBits, rotateLeft_add, BitVec.cons_msb_setWidth]
  | rcr =>
    simp only [shiftBits, rotateRight_add, BitVec.cons_msb_setWidth]

/-- A shift by one place, of a value and the carry. -/
def shiftOnce (op : ShiftOp) (w : Width) (s : Long × Bool) : Long × Bool :=
  let r := shift op s.1 1 s.2 w
  (r.1, r.2.carry.getD s.2)

theorem iterate_shiftOnce (op : ShiftOp) (a : Long) (carry : Bool) (w : Width) {k : Nat}
    (hk : 0 < k) : (shiftOnce op w)^[k] (a, carry) =
      let r := shiftBits op (a.setWidth w.bits) k carry
      (r.1.setWidth 32, r.2) := by
  induction k, hk using Nat.le_induction with
  | base => rfl
  | succ k hk ih =>
    rw [Function.iterate_succ_apply', ih, shiftBits_succ w.bits_pos op _ carry]
    simp only [shiftOnce, shift, if_neg Nat.one_ne_zero, Checked.setWidth_bits, Option.getD_some]

theorem ofResult_setWidth {w : Width} (x : BitVec w.bits) :
    FlagUpdate.ofResult (x.setWidth 32) w =
      { zero := some (x.setWidth 32 == 0), sign := some (w.sign (x.setWidth 32))
        parity := some (evenParity (x.setWidth 32)) } := by
  have hcut : x.setWidth 32 &&& w.mask = x.setWidth 32 := by
    rw [Checked.and_mask_eq, Checked.setWidth_bits]
  rw [FlagUpdate.ofResult, hcut]

end Alu

/-! ## Main result -/

/-- **A shift by a count is so many shifts by one place**, each of the result of the one before and
with the carry that it has left; and so it is made in 64 bits. The zero, sign and parity flags tell
of the last result after a shift, and are not set by a rotation; the overflow flag is set by a
single shift only, and the auxiliary flag never. -/
theorem shift_eq_iterate (op : ShiftOp) (a : Long) (carry : Bool) (w : Width) {n : Nat}
    (h0 : 0 < n) :
    let r := Alu.shift op a n carry w
    let once := (Alu.shiftOnce op w)^[n] (a, carry)
    Checked.shift op a n carry w = some r ∧ (r.1 = once.1 ∧ r.2.carry = some once.2) ∧
    (op ∈ [.shl, .sal, .shr, .sar] → r.2.zero = some (once.1 == 0) ∧
      r.2.sign = some (w.sign once.1) ∧ r.2.parity = some (evenParity once.1)) ∧
    (op ∈ [.rol, .ror, .rcl, .rcr] → r.2.zero = none ∧ r.2.sign = none ∧ r.2.parity = none) ∧
    (r.2.overflow ≠ none ↔ n = 1) ∧ r.2.auxiliary = none := by
  refine ⟨Checked.shift_eq op a carry, ?_⟩
  rw [Alu.iterate_shiftOnce op a carry w h0]
  have hoverflow : ∀ o : Bool, (if n = 1 then some o else none) ≠ none ↔ n = 1 := by
    intro o
    by_cases h1 : n = 1
    · simp [h1]
    · simp [h1]
  cases op with
  | shl | sal | shr | sar =>
    rw [Checked.alu_shift_of_setsResult _ a carry h0.ne' rfl]
    dsimp only [Checked.shifted]
    rw [Alu.ofResult_setWidth]
    exact ⟨⟨rfl, rfl⟩, fun _ => ⟨rfl, rfl, rfl⟩, fun h => by simp at h, hoverflow _, rfl⟩
  | rol | ror | rcl | rcr =>
    rw [Checked.alu_shift_of_rotates _ a carry h0.ne' rfl]
    exact ⟨⟨rfl, rfl⟩, fun h => by simp at h, fun _ => ⟨rfl, rfl, rfl⟩, hoverflow _, rfl⟩

/-- A byte rotated through the carry by seventeen places: once around, and eight places more. -/
theorem shift_eq_iterate_rclb :
    0 < 17 ∧ Alu.shift .rcl 0x96 17 true .byte = (0xCB, { carry := some false }) ∧
      (Alu.shiftOnce .rcl .byte)^[17] (0x96, true) = (0xCB, false) := by
  have hshift : Alu.shift .rcl 0x96 17 true .byte = (0xCB, { carry := some false }) := by decide
  obtain ⟨-, ⟨hres, hcarry⟩, -⟩ := shift_eq_iterate .rcl 0x96 true .byte (by decide : 0 < 17)
  rw [hshift] at hres hcarry
  exact ⟨by decide, hshift, Prod.ext hres.symm (Option.some.inj hcarry).symm⟩

end Ia32
