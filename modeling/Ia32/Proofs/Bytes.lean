import Ia32.Width
import Ia32.Proofs.Reading
import Mathlib.Data.Nat.Bitwise
import Mathlib.Tactic.Positivity

/-!
# Values as bytes

* `toNat_add_ofNat`: the address at an offset;
* `Width.toNat_truncate`: truncation is the remainder by the number of values of the width;
* `ofLittleEndian_littleEndian`: **the bytes of a value, read back**;
* `Reading.reads_value`: what a reading of a value takes.
-/

set_option autoImplicit false

namespace Ia32

theorem toNat_add_ofNat {address : Long} {n : Nat} (h : address.toNat + n < 2 ^ 32) :
    (address + BitVec.ofNat 32 n).toNat = address.toNat + n := by
  rw [BitVec.toNat_add, BitVec.toNat_ofNat, Nat.add_mod_mod, Nat.mod_eq_of_lt h]

namespace Width

/-! ## Widths -/

theorem bits_le (w : Width) : w.bits ≤ 32 := by
  cases w <;> decide

theorem bits_pos (w : Width) : 0 < w.bits := by
  cases w <;> decide

theorem bytes_pos (w : Width) : 1 ≤ w.bytes := by
  cases w <;> decide

theorem bytes_le (w : Width) : w.bytes ≤ 4 := by
  cases w <;> decide

theorem toNat_mask (w : Width) : w.mask.toNat = 2 ^ w.bits - 1 := by
  cases w <;> rfl

theorem le_mask (w : Width) {n : Int} (h : n < 2 ^ w.bits) : n ≤ w.mask.toNat := by
  have hpos := Nat.two_pow_pos w.bits
  have hn : n < ((2 ^ w.bits : Nat) : Int) := by exact_mod_cast h
  rw [w.toNat_mask]
  omega

theorem getLsbD_mask (w : Width) (i : Nat) : w.mask.getLsbD i = decide (i < w.bits) := by
  rw [← BitVec.testBit_toNat, toNat_mask, Nat.testBit_two_pow_sub_one]

theorem sign_eq_getLsbD (w : Width) (v : Long) : w.sign v = v.getLsbD (w.bits - 1) := by
  have hne : w.signMask ≠ 0 := by cases w <;> decide
  rw [sign, signMask, BitVec.and_twoPow]
  cases v.getLsbD (w.bits - 1) with
  | false => rfl
  | true => exact bne_iff_ne.mpr hne

theorem toNat_and_mask (w : Width) (v : Long) : (v &&& w.mask).toNat = v.toNat % 2 ^ w.bits := by
  rw [BitVec.toNat_and, toNat_mask, Nat.and_two_pow_sub_one_eq_mod]

theorem two_pow_bits_dvd (w : Width) : (2 : Int) ^ w.bits ∣ 2 ^ 32 :=
  pow_dvd_pow 2 w.bits_le

/-- **Truncation** leaves the remainder by the number of values of the width. -/
theorem toNat_truncate (w : Width) (n : Int) : ((w.truncate n).toNat : Int) = n % 2 ^ w.bits := by
  have hn : ((BitVec.ofInt 32 n).toNat : Int) = n % 2 ^ 32 := by
    rw [BitVec.toNat_ofInt]
    exact Int.toNat_of_nonneg (Int.emod_nonneg _ (by decide))
  rw [truncate, toNat_and_mask, Int.natCast_mod, hn]
  push_cast
  exact Int.emod_emod_of_dvd n w.two_pow_bits_dvd

theorem truncate_toNat_lt (w : Width) (n : Int) : (w.truncate n).toNat < 2 ^ w.bits := by
  rw [truncate, toNat_and_mask]
  exact Nat.mod_lt _ (Nat.two_pow_pos _)

theorem and_mask_and_mask (w : Width) (v : Long) : v &&& w.mask &&& w.mask = v &&& w.mask := by
  rw [BitVec.and_assoc, BitVec.and_self]

theorem truncate_and_mask (w : Width) (n : Int) : w.truncate n &&& w.mask = w.truncate n := by
  rw [truncate, and_mask_and_mask]

theorem fits_iff (w : Width) (n : Int) : w.fits n = true ↔ 0 ≤ n ∧ n < 2 ^ w.bits := by
  rw [fits, beq_iff_eq, toNat_truncate]
  constructor
  · intro h
    rw [← h]
    exact ⟨Int.emod_nonneg _ (by positivity), Int.emod_lt_of_pos _ (by positivity)⟩
  · rintro ⟨h0, h1⟩
    exact Int.emod_eq_of_lt h0 h1

theorem long_truncate (n : Int) : Width.long.truncate n = BitVec.ofInt 32 n := by
  rw [truncate, show Width.long.mask = BitVec.allOnes 32 from rfl, BitVec.and_allOnes]

theorem long_signed (v : Long) : Width.long.signed v = v.toInt := by
  rw [signed, show Width.long.bits = 32 from rfl, BitVec.setWidth_eq]

end Width

/-! ## Bytes of values -/

@[simp] theorem length_littleEndian (n : Nat) (v : Long) : (littleEndian n v).length = n := by
  induction n generalizing v with
  | zero => rfl
  | succ n ih => rw [littleEndian, List.length_cons, ih]

@[simp] theorem Width.length_immediate (w : Width) (n : Int) :
    (w.immediate n).length = w.bytes := length_littleEndian _ _

theorem Width.immediate_byte (n : Int) : Width.byte.immediate n = [BitVec.ofInt 8 n] := by
  have h : (Width.byte.truncate n).setWidth 8 = BitVec.ofInt 8 n := by
    apply BitVec.eq_of_toNat_eq
    have hn := Width.byte.toNat_truncate n
    have hlt := Width.byte.truncate_toNat_lt n
    rw [BitVec.toNat_setWidth, BitVec.toNat_ofInt]
    change (_ : Int) = n % 2 ^ 8 at hn
    change _ < 2 ^ 8 at hlt
    omega
  exact congrArg (fun b => [b]) h

theorem getLsbD_ofLittleEndian_littleEndian (n : Nat) (v : Long) (i : Nat) :
    (ofLittleEndian (littleEndian n v)).getLsbD i = (decide (i < 8 * n) && v.getLsbD i) := by
  induction n generalizing v i with
  | zero => simp [littleEndian, ofLittleEndian]
  | succ n ih =>
    rw [littleEndian, ofLittleEndian, BitVec.getLsbD_or, BitVec.getLsbD_shiftLeft, ih]
    simp only [BitVec.getLsbD_setWidth, BitVec.getLsbD_ushiftRight]
    by_cases hi : i < 8
    · have h32 : i < 32 := by omega
      have hn : i < 8 * (n + 1) := by omega
      simp [hi, h32, hn]
    · rw [show 8 + (i - 8) = i by omega]
      have hn : (i - 8 < 8 * n) = (i < 8 * (n + 1)) := by
        apply propext
        omega
      by_cases h32 : i < 32
      · simp [hi, h32, hn]
      · simp [hi, BitVec.getLsbD_of_ge v i (by omega)]

/-- **The bytes of a value, read back**, are the bits of the value that the width has. -/
theorem ofLittleEndian_littleEndian (w : Width) (v : Long) :
    ofLittleEndian (littleEndian w.bytes v) = v &&& w.mask := by
  ext i hi
  rw [← BitVec.getLsbD_eq_getElem, ← BitVec.getLsbD_eq_getElem,
    getLsbD_ofLittleEndian_littleEndian, BitVec.getLsbD_and, Width.getLsbD_mask, Width.bits,
    Bool.and_comm]

theorem ofLittleEndian_immediate (w : Width) (n : Int) :
    ofLittleEndian (w.immediate n) = w.truncate n := by
  rw [Width.immediate, ofLittleEndian_littleEndian, Width.truncate_and_mask]

theorem toNat_ofLittleEndian_lt (bs : List Byte) :
    (ofLittleEndian bs).toNat < 2 ^ (8 * bs.length) := by
  induction bs with
  | nil => exact Nat.one_pos
  | cons b bs ih =>
    rw [ofLittleEndian, BitVec.toNat_or, BitVec.toNat_shiftLeft, BitVec.toNat_setWidth,
      List.length_cons]
    have hp : 2 ^ (8 * (bs.length + 1)) = 2 ^ (8 * bs.length) * 2 ^ 8 := by
      rw [← pow_add]
      rfl
    apply Nat.or_lt_two_pow
    · refine lt_of_le_of_lt (Nat.mod_le _ _) ?_
      rw [Nat.shiftLeft_eq, hp]
      exact Nat.mul_lt_mul_of_pos_right ih (by decide)
    · refine lt_of_le_of_lt (Nat.mod_le _ _) (lt_of_lt_of_le b.isLt ?_)
      rw [hp]
      exact Nat.le_mul_of_pos_left _ (by positivity)

/-! ## Values read -/

namespace Reading

theorem value_eq (w : Width) :
    value w = bytes w.bytes >>= fun bs => pure (ofLittleEndian bs) := rfl

theorem reads_value {w : Width} {bs : List Byte} {v : Long} :
    (value w).Reads bs v ↔ bs.length = w.bytes ∧ v = ofLittleEndian bs := by
  simp only [value_eq, reads_bind, reads_bytes, reads_pure]
  constructor
  · rintro ⟨_, cs, _, rfl, ⟨rfl, h⟩, rfl, rfl⟩
    exact ⟨by simpa using h, by simp⟩
  · rintro ⟨h, rfl⟩
    exact ⟨bs, bs, [], by simp, ⟨rfl, h⟩, rfl, rfl⟩

theorem reads_immediate (w : Width) (n : Int) :
    (value w).Reads (w.immediate n) (w.truncate n) :=
  reads_value.mpr ⟨w.length_immediate n, (ofLittleEndian_immediate w n).symm⟩

theorem yields_value (w : Width) : (value w).Yields fun v => v.toNat < 2 ^ w.bits := by
  intro bs v h
  obtain ⟨hl, rfl⟩ := reads_value.mp h
  rw [Width.bits, ← hl]
  exact toNat_ofLittleEndian_lt bs

end Reading

end Ia32
