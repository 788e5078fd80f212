import Ia32.Proofs.Halves
import Ia32.Proofs.SingleShifts

/-!
# Rotations undone

* `rotateRight_rotateLeft`, `rotateLeft_rotateRight`: a rotation one way and back;
* `Alu.shiftBits_ror_rol`, `Alu.shiftBits_rcr_rcl` and their converses: the bits that count;
* `Alu.shiftFlags`: a shift of a value, and the flags after it;
* `Alu.shift_undo`, `Alu.shiftFlags_undo`: from the bits that count to values and flags;
* **`rotations_undone`**: a rotation by a count, and then the other way by that count, gives the
  value back, and the carry too if it goes through it.
-/

set_option autoImplicit false

namespace Ia32

/-! ## Bits -/

section Bits

variable {n : Nat} (x : BitVec n)

theorem rotateRight_of_dvd {k : Nat} (h : n ∣ k) : x.rotateRight k = x := by
  apply BitVec.eq_of_getLsbD_eq
  intro i hi
  rw [getLsbD_rotateRight_mod x k hi, ← Nat.add_mod_mod, Nat.mod_eq_zero_of_dvd h, Nat.add_zero,
    Nat.mod_eq_of_lt hi]

theorem dvd_turns (hn : 0 < n) (k : Nat) : n ∣ n - k % n + k := by
  have hk : k % n < n := Nat.mod_lt _ hn
  apply Nat.dvd_of_mod_eq_zero
  rw [← Nat.add_mod_mod, Nat.sub_add_cancel hk.le, Nat.mod_self]

theorem rotateRight_rotateLeft (k : Nat) : (x.rotateLeft k).rotateRight k = x := by
  rcases Nat.eq_zero_or_pos n with rfl | hn
  · exact Subsingleton.elim _ _
  rw [rotateLeft_eq_rotateRight, ← rotateRight_add, rotateRight_of_dvd x (dvd_turns hn k)]

theorem rotateLeft_rotateRight (k : Nat) : (x.rotateRight k).rotateLeft k = x := by
  rcases Nat.eq_zero_or_pos n with rfl | hn
  · exact Subsingleton.elim _ _
  rw [rotateLeft_eq_rotateRight, ← rotateRight_add, Nat.add_comm,
    rotateRight_of_dvd x (dvd_turns hn k)]

end Bits

namespace Alu

/-! ## Rotations through the carry and past it -/

section ShiftBits

variable {n : Nat} (x : BitVec n) (k : Nat) (c c' : Bool)

theorem shiftBits_ror_rol : (shiftBits .ror (shiftBits .rol x k c).1 k c').1 = x :=
  rotateRight_rotateLeft x k

theorem shiftBits_rol_ror : (shiftBits .rol (shiftBits .ror x k c).1 k c').1 = x :=
  rotateLeft_rotateRight x k

theorem shiftBits_rcr_rcl :
    shiftBits .rcr (shiftBits .rcl x k c).1 k (shiftBits .rcl x k c).2 = (x, c) := by
  simp only [shiftBits, BitVec.cons_msb_setWidth, rotateRight_rotateLeft, BitVec.setWidth_cons,
    BitVec.msb_cons]

theorem shiftBits_rcl_rcr :
    shiftBits .rcl (shiftBits .rcr x k c).1 k (shiftBits .rcr x k c).2 = (x, c) := by
  simp only [shiftBits, BitVec.cons_msb_setWidth, rotateLeft_rotateRight, BitVec.setWidth_cons,
    BitVec.msb_cons]

end ShiftBits

/-! ## Values and flags -/

/-- A shift or rotation of a value, and the flags after it. -/
def shiftFlags (op : ShiftOp) (count : Nat) (w : Width) (s : Long × Flags) : Long × Flags :=
  let r := shift op s.1 count s.2.carry w
  (r.1, r.2.apply s.2)

section Shift

variable {w : Width} {count : Nat}

theorem shift_fst (op : ShiftOp) (a : Long) (c : Bool) (h0 : count ≠ 0) :
    (shift op a count c w).1 =
      (shiftBits op (a.setWidth w.bits) count c).1.setWidth 32 := by
  rw [shift, if_neg h0]

theorem shiftFlags_of_rotates {op : ShiftOp} (hop : shiftSetsResult op = false) (h0 : count ≠ 0)
    (a : Long) (f : Flags) : ∃ overflow, shiftFlags op count w (a, f) =
      let r := shiftBits op (a.setWidth w.bits) count f.carry
      (r.1.setWidth 32, { f with carry := r.2, overflow }) := by
  rw [shiftFlags, Checked.alu_shift_of_rotates op a f.carry h0 hop]
  exact ⟨_, rfl⟩

variable {a : Long} (ha : a.toNat < 2 ^ w.bits)

include ha

theorem setWidth_32 : (a.setWidth w.bits).setWidth 32 = a := by
  rw [← Checked.and_mask_eq, Width.and_mask_of_lt ha]

theorem shift_zero (op : ShiftOp) (c : Bool) : shift op a 0 c w = (a, {}) := by
  rw [shift, if_pos rfl, Width.and_mask_of_lt ha]

theorem shift_undo {op back : ShiftOp} {c c' : Bool}
    (h : ∀ x : BitVec w.bits, (shiftBits back (shiftBits op x count c).1 count c').1 = x) :
    (shift back (shift op a count c w).1 count c' w).1 = a := by
  by_cases h0 : count = 0
  · rw [h0, shift_zero ha, shift_zero ha]
  · rw [shift_fst back _ c' h0, shift_fst op a c h0, Checked.setWidth_bits, h, setWidth_32 ha]

theorem shiftFlags_undo {op back : ShiftOp} (hop : shiftSetsResult op = false)
    (hback : shiftSetsResult back = false)
    (h : ∀ (x : BitVec w.bits) (c : Bool),
      shiftBits back (shiftBits op x count c).1 count (shiftBits op x count c).2 = (x, c))
    (f : Flags) : ∃ overflow,
      shiftFlags back count w (shiftFlags op count w (a, f)) = (a, { f with overflow }) := by
  by_cases h0 : count = 0
  · refine ⟨f.overflow, ?_⟩
    rw [h0, shiftFlags, shiftFlags, shift_zero ha, shift_zero ha]
    rfl
  · obtain ⟨first, hfirst⟩ := shiftFlags_of_rotates (w := w) hop h0 a f
    obtain ⟨second, hsecond⟩ := shiftFlags_of_rotates (w := w) hback h0
      (shiftFlags op count w (a, f)).1 (shiftFlags op count w (a, f)).2
    -- the flags in between hold the carry that the second rotation needs
    refine ⟨second, hsecond.trans ?_⟩
    simp only [hfirst, Checked.setWidth_bits, h, setWidth_32 ha]

end Shift

end Alu

open Alu

/-- **Rotations are undone** by those the other way: the value is the same again, and so are all
flags but the overflow flag if the rotations go through the carry. No rotation fails in 64 bits. -/
theorem rotations_undone (w : Width) (a : Long) (count : Nat) (ha : a.toNat < 2 ^ w.bits) :
    (∀ c c' : Bool, (shift .ror (shift .rol a count c w).1 count c' w).1 = a ∧
      (shift .rol (shift .ror a count c w).1 count c' w).1 = a) ∧
    (∀ f : Flags,
      (∃ overflow, shiftFlags .rcr count w (shiftFlags .rcl count w (a, f)) =
        (a, { f with overflow })) ∧
      ∃ overflow, shiftFlags .rcl count w (shiftFlags .rcr count w (a, f)) =
        (a, { f with overflow })) ∧
    ∀ (op : ShiftOp) (x : Long) (c : Bool),
      Checked.shift op x count c w = some (shift op x count c w) := by
  refine ⟨fun c c' => ⟨?_, ?_⟩, fun f => ⟨?_, ?_⟩, fun op x c => Checked.shift_eq op x c⟩
  · exact shift_undo ha fun x => shiftBits_ror_rol x count c c'
  · exact shift_undo ha fun x => shiftBits_rol_ror x count c c'
  · exact shiftFlags_undo ha rfl rfl (fun x c => shiftBits_rcr_rcl x count c) f
  · exact shiftFlags_undo ha rfl rfl (fun x c => shiftBits_rcl_rcr x count c) f

/-- A word rotated through the carry by seventeen places, once around, and back. -/
theorem rotations_undone_rclw : (0x8001 : Long).toNat < 2 ^ Width.word.bits ∧
    (shiftFlags .rcr 17 .word (shiftFlags .rcl 17 .word (0x8001, { carry := true }))).1 = 0x8001 ∧
    (shiftFlags .rcr 17 .word (shiftFlags .rcl 17 .word (0x8001, { carry := true }))).2.carry =
      true := by
  obtain ⟨-, hflags, -⟩ := rotations_undone .word 0x8001 17 (by decide)
  obtain ⟨overflow, hback⟩ := (hflags { carry := true }).1
  rw [hback]
  exact ⟨by decide, rfl, rfl⟩

end Ia32
