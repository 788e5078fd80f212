import Ia32.Proofs.OperandBytes
import Ia32.Proofs.Registers
import Ia32.Proofs.Written

/-!
# Views of registers

The 24 names are views of eight registers, and what is put in place through one name is seen through
all others that share a bit with it.

* `Reg.IsBit`: which bit of a register each bit of a name is; `Reg.isBit_iff`: it is that of its
  slot;
* `Reg.Apart`: names that share no bit; `Registers.get_set_of_apart`: they do not disturb each
  other;
* **`Registers.views_alias`**: a register that is set, seen through any name.
-/

set_option autoImplicit false

namespace Ia32

/-! ## Bits of a name -/

namespace Reg

/-- Bit `j` of a name is bit `k` of the register with a number. The names of longs show all of the
register with their number, and those of words its low half. The first four names of bytes show the
lowest byte of one of the first four registers, and the other four the byte above it. -/
inductive IsBit : Reg → Nat → BitVec 3 → Nat → Prop where
  | long (c : BitVec 3) {j : Nat} (h : j < 32) : IsBit ⟨.long, c⟩ j c j
  | word (c : BitVec 3) {j : Nat} (h : j < 16) : IsBit ⟨.word, c⟩ j c j
  | low (c : BitVec 2) {j : Nat} (h : j < 8) : IsBit ⟨.byte, 0#1 ++ c⟩ j (0#1 ++ c) j
  | high (c : BitVec 2) {j : Nat} (h : j < 8) : IsBit ⟨.byte, 1#1 ++ c⟩ j (0#1 ++ c) (8 + j)

theorem slot_low : ∀ c : BitVec 2, (⟨.byte, 0#1 ++ c⟩ : Reg).slot = (0#1 ++ c).toFin ∧
    (⟨.byte, 0#1 ++ c⟩ : Reg).shift = 0 := by
  decide

theorem slot_high : ∀ c : BitVec 2, (⟨.byte, 1#1 ++ c⟩ : Reg).slot = (0#1 ++ c).toFin ∧
    (⟨.byte, 1#1 ++ c⟩ : Reg).shift = 8 := by
  decide

theorem low_or_high (c : BitVec 3) : ∃ d : BitVec 2, c = 0#1 ++ d ∨ c = 1#1 ++ d := by
  have hall : ∀ c : BitVec 3, c = 0#1 ++ c.extractLsb' 0 2 ∨ c = 1#1 ++ c.extractLsb' 0 2 := by
    decide
  exact ⟨_, hall c⟩

/-- **The bits of a name** start at its shift in its slot. -/
theorem isBit_iff {r : Reg} {j k : Nat} {slot : BitVec 3} :
    r.IsBit j slot k ↔ r.slot = slot.toFin ∧ k = r.shift + j ∧ j < r.width.bits := by
  constructor
  · intro h
    cases h with
    | long c h | word c h => exact ⟨rfl, (Nat.zero_add j).symm, h⟩
    | low c h => exact ⟨(slot_low c).1, by rw [(slot_low c).2, Nat.zero_add], h⟩
    | high c h => exact ⟨(slot_high c).1, by rw [(slot_high c).2], h⟩
  · obtain ⟨w, c⟩ := r
    rintro ⟨hslot, rfl, hj⟩
    cases w with
    | long =>
      obtain rfl : c = slot := BitVec.eq_of_toFin_eq hslot
      rw [show (⟨.long, c⟩ : Reg).shift = 0 from rfl, Nat.zero_add]
      exact .long c hj
    | word =>
      obtain rfl : c = slot := BitVec.eq_of_toFin_eq hslot
      rw [show (⟨.word, c⟩ : Reg).shift = 0 from rfl, Nat.zero_add]
      exact .word c hj
    | byte =>
      obtain ⟨d, rfl | rfl⟩ := low_or_high c
      · obtain rfl := BitVec.eq_of_toFin_eq ((slot_low d).1.symm.trans hslot)
        rw [(slot_low d).2, Nat.zero_add]
        exact .low d hj
      · obtain rfl := BitVec.eq_of_toFin_eq ((slot_high d).1.symm.trans hslot)
        rw [(slot_high d).2]
        exact .high d hj

/-- Names that share no bit of a register. -/
def Apart (r s : Reg) : Prop := ∀ i j slot k, r.IsBit i slot k → ¬ s.IsBit j slot k

theorem apart_of_slot_ne {r s : Reg} (h : r.slot ≠ s.slot) : r.Apart s :=
  fun _ _ _ _ hr hs => h ((isBit_iff.mp hr).1.trans (isBit_iff.mp hs).1.symm)

theorem apart_low_high (c : BitVec 2) : Apart ⟨.byte, 0#1 ++ c⟩ ⟨.byte, 1#1 ++ c⟩ := by
  intro i j slot k hlow hhigh
  obtain ⟨-, rfl, hi⟩ := isBit_iff.mp hlow
  obtain ⟨-, hk, -⟩ := isBit_iff.mp hhigh
  have hi : i < 8 := hi
  rw [(slot_low c).2, (slot_high c).2] at hk
  omega

theorem Apart.symm {r s : Reg} (h : r.Apart s) : s.Apart r :=
  fun i j slot k hs hr => h j i slot k hr hs

theorem exists_isBit_iff {r : Reg} {slot : BitVec 3} {k : Nat} :
    (∃ j, r.IsBit j slot k) ↔ r.Shows slot.toFin k := by
  simp only [isBit_iff, Shows]
  constructor
  · rintro ⟨j, hslot, rfl, hj⟩
    exact ⟨hslot, by omega, by omega⟩
  · rintro ⟨hslot, hle, hlt⟩
    exact ⟨k - r.shift, hslot, by omega, by omega⟩

end Reg

/-! ## A register that is set -/

namespace Registers

variable {regs : Registers} {r s : Reg} {v : Long} {i j k : Nat} {slot : BitVec 3}

theorem getLsbD_get_of_isBit (h : r.IsBit j slot k) :
    (regs.get r).getLsbD j = (regs.general.get slot.toFin).getLsbD k := by
  obtain ⟨hslot, rfl, hj⟩ := Reg.isBit_iff.mp h
  rw [getLsbD_get, hslot, decide_eq_true hj, Bool.true_and]

theorem getLsbD_get_set_of_isBit (hs : s.IsBit j slot k) (hr : r.IsBit i slot k) :
    ((regs.set r v).get s).getLsbD j = v.getLsbD i := by
  obtain ⟨-, hk, -⟩ := Reg.isBit_iff.mp hr
  rw [getLsbD_get_of_isBit hs, getLsbD_set, if_pos (Reg.exists_isBit_iff.mp ⟨i, hr⟩), hk,
    Nat.add_sub_cancel_left]

theorem getLsbD_get_set_of_not_isBit (hs : s.IsBit j slot k) (hr : ∀ i, ¬ r.IsBit i slot k) :
    ((regs.set r v).get s).getLsbD j = (regs.get s).getLsbD j := by
  have hshows : ¬ r.Shows slot.toFin k := fun h => by
    obtain ⟨i, hi⟩ := Reg.exists_isBit_iff.mpr h
    exact hr i hi
  rw [getLsbD_get_of_isBit hs, getLsbD_get_of_isBit hs, getLsbD_set, if_neg hshows]

/-- **Names that share no bit** do not disturb each other. -/
theorem get_set_of_apart (h : r.Apart s) : (regs.set r v).get s = regs.get s := by
  refine get_set_of_disjoint (fun slot k hs hr => ?_) regs v
  obtain ⟨j, hj⟩ : ∃ j, s.IsBit j ⟨slot⟩ k := Reg.exists_isBit_iff.mpr hs
  obtain ⟨i, hi⟩ : ∃ i, r.IsBit i ⟨slot⟩ k := Reg.exists_isBit_iff.mpr hr
  exact h i j _ _ hi hj

/-! ## Main result -/

/-- **Names are views of registers.** After a register has been set, each bit of any name is the
bit of the value that is there, if the name that was set shows it, and else the bit that was there
before; a name has no other bits. So the register has the value, cut down to its width, and names of
other registers, the other byte of the same register and the instruction pointer are as before. A
name is the one with its number in the table of its width, and the one with its spelling, and the
decoder finds it in the operand byte that it is encoded in. -/
theorem views_alias (regs : Registers) (r : Reg) (v : Long) :
    (∀ s j slot k, s.IsBit j slot k →
      (∀ i, r.IsBit i slot k → ((regs.set r v).get s).getLsbD j = v.getLsbD i) ∧
      ((∀ i, ¬ r.IsBit i slot k) →
        ((regs.set r v).get s).getLsbD j = (regs.get s).getLsbD j)) ∧
    (∀ s : Reg, ∀ j < s.width.bits, ∃ slot k, s.IsBit j slot k) ∧
    (∀ s : Reg, ∀ j ≥ s.width.bits, ((regs.set r v).get s).getLsbD j = false) ∧
    (regs.set r v).get r = v &&& r.width.mask ∧
    (∀ s : Reg, s.slot ≠ r.slot → (regs.set r v).get s = regs.get s) ∧
    (∀ c : BitVec 2,
      (r = ⟨.byte, 0#1 ++ c⟩ →
        (regs.set r v).get ⟨.byte, 1#1 ++ c⟩ = regs.get ⟨.byte, 1#1 ++ c⟩) ∧
      (r = ⟨.byte, 1#1 ++ c⟩ →
        (regs.set r v).get ⟨.byte, 0#1 ++ c⟩ = regs.get ⟨.byte, 0#1 ++ c⟩)) ∧
    (regs.set r v).eip = regs.eip ∧
    Reg.ofCode r.code r.width = r ∧ Reg.ofName? r.name = some r ∧
    ∀ field, ∃ bs, ModRM.encode (.reg r) field = .ok bs ∧ ∀ pre rest,
      Decoder.modRM r.width ⟨pre ++ (bs ++ rest), pre.length⟩ =
        .ok (field, .reg r) ⟨pre ++ (bs ++ rest), pre.length + bs.length⟩ := by
  refine ⟨fun s j slot k hs => ⟨fun i hr => getLsbD_get_set_of_isBit hs hr,
    getLsbD_get_set_of_not_isBit hs⟩, fun s j hj => ?_, fun s j hj => ?_, regs.get_set_self r v,
    fun s hs => get_set_of_apart (Reg.apart_of_slot_ne hs.symm), fun c => ⟨?_, ?_⟩, rfl,
    Reg.ofCode_eq r.code r.width, Reg.all_ofName? r r.mem_all, fun field => ⟨_, rfl, ?_⟩⟩
  · exact ⟨⟨s.slot⟩, s.shift + j, Reg.isBit_iff.mpr ⟨rfl, rfl, hj⟩⟩
  · rw [getLsbD_get, decide_eq_false (Nat.not_lt_of_le hj), Bool.false_and]
  · rintro rfl
    exact get_set_of_apart (Reg.apart_low_high c)
  · rintro rfl
    exact get_set_of_apart (Reg.apart_low_high c).symm
  · have hreads := Reading.reads_modRM (.reg r field) fun _ h => by cases h; rfl
    exact (Decoder.modRM_follows r.width).take hreads

/-- The second byte of a register is set: its value is cut down, the first byte stays as it was, and
the whole register shows the new bits between the old ones. -/
theorem views_alias_ah :
    let regs := ({} : Registers).set .eax 0xAABBCCDD
    (regs.set .ah 0x1EE).get .ah = 0xEE ∧ (regs.set .ah 0x1EE).get .al = regs.get .al ∧
      ((regs.set .ah 0x1EE).get .ax).getLsbD 9 = true ∧
      ((regs.set .ah 0x1EE).get .eax).getLsbD 16 = (regs.get .eax).getLsbD 16 := by
  intro regs
  obtain ⟨hbit, -, -, hself, -, hbyte, -⟩ := views_alias regs .ah 0x1EE
  have hshow : Reg.ah.IsBit 1 0 9 := .high 0 (by decide)
  have hhide : ∀ i, ¬ Reg.ah.IsBit i 0 16 := by
    intro i hi
    obtain ⟨-, hk, hlt⟩ := Reg.isBit_iff.mp hi
    have hshift : Reg.ah.shift = 8 := rfl
    have hlt : i < 8 := hlt
    omega
  exact ⟨hself, (hbyte 0).2 rfl, (hbit .ax 9 0 9 (.word 0 (by decide))).1 1 hshow,
    (hbit .eax 16 0 16 (.long 0 (by decide))).2 hhide⟩

end Registers

end Ia32
