import Ia32.Machine.Registers
import Ia32.Proofs.Bytes

/-!
# Registers bit by bit

* `Reg.slot_eq`, `Reg.Shows`: the physical register behind a name, and the bits of it that the name
  shows;
* `Registers.getLsbD_get`, **`Registers.getLsbD_set`**: a register by name, bit by bit;
* `Registers.get_and_mask`, `Registers.get_set_self`: a register has a value of its width, which is
  what it was set to, cut down to the width;
* `Registers.get_set_of_disjoint`: registers that share no bit.
-/

set_option autoImplicit false

namespace Ia32

/-! ## Names and the bits behind them -/

namespace Reg

/-- A name shows a bit of a physical register. -/
def Shows (r : Reg) (slot : Fin 8) (k : Nat) : Prop :=
  r.slot = slot ∧ r.shift ≤ k ∧ k < r.shift + r.width.bits

instance (r : Reg) (slot : Fin 8) (k : Nat) : Decidable (r.Shows slot k) :=
  inferInstanceAs (Decidable (_ ∧ _))

theorem shift_add_bits_le (r : Reg) : r.shift + r.width.bits ≤ 32 := by
  have hshift : r.shift = 0 ∨ r.shift = 8 ∧ r.width = .byte := by
    by_cases hr : r.isHighByte = true
    · have hw : r.width = .byte := by simp_all [isHighByte]
      exact .inr ⟨if_pos hr, hw⟩
    · exact .inl (if_neg hr)
  rcases hshift with h | ⟨h, hw⟩
  · rw [h, Nat.zero_add]
    exact r.width.bits_le
  · rw [h, hw]
    decide

theorem Shows.lt {r : Reg} {slot : Fin 8} {k : Nat} (h : r.Shows slot k) : k < 32 :=
  Nat.lt_of_lt_of_le h.2.2 r.shift_add_bits_le

theorem slot_eq {w : Width} (hw : w ≠ .byte) (c : BitVec 3) : (⟨w, c⟩ : Reg).slot = c.toFin := by
  cases w with
  | byte => exact absurd rfl hw
  | word | long => rfl

theorem slot_ne {w w' : Width} (hw : w ≠ .byte) (hw' : w' ≠ .byte) {c c' : BitVec 3} (h : c ≠ c') :
    (⟨w, c⟩ : Reg).slot ≠ (⟨w', c'⟩ : Reg).slot := by
  rw [slot_eq hw, slot_eq hw']
  exact fun hslot => h (BitVec.eq_of_toFin_eq hslot)

theorem shows_iff {w : Width} (hw : w ≠ .byte) {c : BitVec 3} {slot : Fin 8} {k : Nat} :
    (⟨w, c⟩ : Reg).Shows slot k ↔ c.toFin = slot ∧ k < w.bits := by
  cases w with
  | byte => exact absurd rfl hw
  | word | long => simp [Shows, Reg.slot, Reg.shift, isHighByte]

end Reg

namespace Registers

variable (regs : Registers) (r : Reg) (v : Long)

theorem getLsbD_viewMask (k : Nat) :
    (viewMask r).getLsbD k = decide (r.shift ≤ k ∧ k < r.shift + r.width.bits) := by
  have hle := r.shift_add_bits_le
  rw [viewMask, BitVec.getLsbD_shiftLeft, Width.getLsbD_mask, Bool.eq_iff_iff]
  simp only [Bool.and_eq_true, Bool.not_eq_true', decide_eq_true_eq, decide_eq_false_iff_not]
  omega

theorem getLsbD_get (k : Nat) : (regs.get r).getLsbD k =
    (decide (k < r.width.bits) && (regs.general.get r.slot).getLsbD (r.shift + k)) := by
  rw [get, BitVec.getLsbD_and, BitVec.getLsbD_ushiftRight, Width.getLsbD_mask, Bool.and_comm]

theorem get_and_mask : regs.get r &&& r.width.mask = regs.get r := by
  rw [get, Width.and_mask_and_mask]

/-- **A register that is set** takes the bits that its name shows from the value; all other bits
stay as they were. -/
theorem getLsbD_set (slot : Fin 8) (k : Nat) : ((regs.set r v).general.get slot).getLsbD k =
    if r.Shows slot k then v.getLsbD (k - r.shift) else (regs.general.get slot).getLsbD k := by
  by_cases hslot : r.slot = slot
  · subst hslot
    have hself : ∀ x, (regs.general.set r.slot x).get r.slot = x :=
      fun x => Vector.getElem_set_self r.slot.isLt
    simp only [set, hself, BitVec.getLsbD_or, BitVec.getLsbD_and, BitVec.getLsbD_not,
      BitVec.getLsbD_shiftLeft, getLsbD_viewMask, Reg.Shows, true_and]
    by_cases hk : r.shift ≤ k ∧ k < r.shift + r.width.bits
    · have hlt : k < 32 := Reg.Shows.lt ⟨rfl, hk⟩
      simp [hk, hlt]
    · by_cases hlt : k < 32
      · simp [hk, hlt]
      · simp [hk, hlt, BitVec.getLsbD_of_ge _ k (Nat.le_of_not_lt hlt)]
  · have hne : r.slot.val ≠ slot.val := fun he => hslot (Fin.ext he)
    have hother : ∀ x, (regs.general.set r.slot x).get slot = regs.general.get slot :=
      fun x => Vector.getElem_set_ne r.slot.isLt slot.isLt hne
    rw [if_neg fun h => hslot h.1]
    simp only [set, hother]

/-- **What a register is set to** is found there, cut down to its width. -/
theorem get_set_self : (regs.set r v).get r = v &&& r.width.mask := by
  apply BitVec.eq_of_getLsbD_eq
  intro k hk
  rw [getLsbD_get, getLsbD_set, BitVec.getLsbD_and, Width.getLsbD_mask, Bool.and_comm]
  by_cases hbits : k < r.width.bits
  · have hshows : r.Shows r.slot (r.shift + k) := ⟨rfl, by omega, by omega⟩
    rw [if_pos hshows, Nat.add_sub_cancel_left]
  · simp [hbits]

theorem get_set_of_disjoint {r s : Reg} (h : ∀ slot k, r.Shows slot k → ¬ s.Shows slot k)
    (regs : Registers) (v : Long) : (regs.set s v).get r = regs.get r := by
  apply BitVec.eq_of_getLsbD_eq
  intro k hk
  rw [getLsbD_get, getLsbD_get, getLsbD_set]
  by_cases hbits : k < r.width.bits
  · rw [if_neg (h r.slot (r.shift + k) ⟨rfl, by omega, by omega⟩)]
  · simp [hbits]

end Registers

end Ia32
