import Ia32.Machine.Alu
import Ia32.Proofs.Bytes

/-!
# Shifts in 64 bits

Shifts and rotations of values of up to 33 bits are made in 64 bits, by places that are reckoned
from the count. A sum of such numbers must fit in 32 bits, and no difference may be negative.

* `Checked.sum`, `Checked.difference`: a sum and a difference, if they are such;
* `Checked.rotateLeft`, `Checked.rotateRight`, `Checked.extend`: rotations and the extension of a
  sign in 64 bits; `rotateLeft_eq`, `rotateRight_eq`, `extend_eq`: they are those of bit vectors;
* `Checked.shift`, **`Checked.shift_eq`**: all shifts and rotations, of which none fails.
-/

set_option autoImplicit false

namespace Ia32

namespace Checked

/-! ## Places -/

/-- A sum, if it fits in 32 bits. -/
def sum (a b : Nat) : Option Nat := if a + b < 2 ^ 32 then some (a + b) else none

/-- A difference, if it is not negative. -/
def difference (a b : Nat) : Option Nat := if b ≤ a then some (a - b) else none

theorem sum_eq {a b : Nat} (h : a + b < 2 ^ 32) : sum a b = some (a + b) := if_pos h

theorem difference_eq {a b : Nat} (h : b ≤ a) : difference a b = some (a - b) := if_pos h

/-! ## Rotations and signs -/

/-- Ones in so many of the lowest bits. -/
def ones (n : Nat) : BitVec 64 := BitVec.ofNat 64 (2 ^ n - 1)

/-- The lowest bits rotated to the left. -/
def rotateLeft (n : Nat) (x : BitVec 64) (count : Nat) : Option (BitVec 64) := do
  let back ← difference n (count % n)
  return (x <<< (count % n) ||| x >>> (back % n)) &&& ones n

/-- The lowest bits rotated to the right. -/
def rotateRight (n : Nat) (x : BitVec 64) (count : Nat) : Option (BitVec 64) := do
  let back ← difference n (count % n)
  return (x >>> (count % n) ||| x <<< (back % n)) &&& ones n

/-- The lowest bits with their sign. -/
def extend (n : Nat) (x : BitVec 64) : Option (BitVec 64) := do
  let places ← difference 64 n
  return (x <<< places).sshiftRight places

theorem getLsbD_ones {n : Nat} (hn : n ≤ 64) (i : Nat) : (ones n).getLsbD i = decide (i < n) := by
  rw [ones, BitVec.getLsbD_ofNat, Nat.testBit_two_pow_sub_one, Bool.eq_iff_iff]
  simp only [Bool.and_eq_true, decide_eq_true_eq]
  omega

section Rotate

variable {n : Nat} (x : BitVec n) (count : Nat)

/-- Beyond the width there are no bits, so that nothing is shifted in but what is rotated. -/
theorem rotateLeft_eq (h0 : 0 < n) (hn : n ≤ 64) :
    rotateLeft n (x.setWidth 64) count = some ((x.rotateLeft count).setWidth 64) := by
  have hc : count % n < n := Nat.mod_lt _ h0
  unfold rotateLeft
  rw [difference_eq hc.le, Option.bind_eq_bind, Option.bind_some]
  refine congrArg some (BitVec.eq_of_getLsbD_eq fun i hi => ?_)
  simp only [BitVec.getLsbD_and, BitVec.getLsbD_or, BitVec.getLsbD_shiftLeft,
    BitVec.getLsbD_ushiftRight, BitVec.getLsbD_setWidth, getLsbD_ones hn,
    BitVec.getLsbD_rotateLeft, hi, decide_true, Bool.true_and]
  generalize count % n = c at hc ⊢
  by_cases hin : i < n
  · by_cases hic : i < c
    · have hback : (n - c) % n = n - c := Nat.mod_eq_of_lt (by omega)
      have hlt : n - c + i < 64 := by omega
      simp [hin, hic, hback, hlt]
    · have hlt : i - c < 64 := by omega
      rcases Nat.eq_zero_or_pos c with rfl | hpos
      · simp [hin, hi]
      · have hback : (n - c) % n = n - c := Nat.mod_eq_of_lt (by omega)
        have hout : x.getLsbD (n - c + i) = false := BitVec.getLsbD_of_ge _ _ (by omega)
        simp [hin, hic, hback, hlt, hout]
  · have hic : ¬ i < c := by omega
    simp [hin, hic]

theorem rotateRight_eq (h0 : 0 < n) (hn : n ≤ 64) :
    rotateRight n (x.setWidth 64) count = some ((x.rotateRight count).setWidth 64) := by
  have hc : count % n < n := Nat.mod_lt _ h0
  unfold rotateRight
  rw [difference_eq hc.le, Option.bind_eq_bind, Option.bind_some]
  refine congrArg some (BitVec.eq_of_getLsbD_eq fun i hi => ?_)
  simp only [BitVec.getLsbD_and, BitVec.getLsbD_or, BitVec.getLsbD_shiftLeft,
    BitVec.getLsbD_ushiftRight, BitVec.getLsbD_setWidth, getLsbD_ones hn,
    BitVec.getLsbD_rotateRight, hi, decide_true, Bool.true_and]
  generalize count % n = c at hc ⊢
  by_cases hin : i < n
  · by_cases hic : i < n - c
    · have hlt : c + i < 64 := by omega
      rcases Nat.eq_zero_or_pos c with rfl | hpos
      · simp [hin, hi]
      · have hback : (n - c) % n = n - c := Nat.mod_eq_of_lt (by omega)
        simp [hin, hic, hback, hlt]
    · have hback : (n - c) % n = n - c := Nat.mod_eq_of_lt (by omega)
      have hlt : i - (n - c) < 64 := by omega
      have hout : x.getLsbD (c + i) = false := BitVec.getLsbD_of_ge _ _ (by omega)
      simp [hin, hic, hback, hlt, hout]
  · have hic : ¬ i < n - c := by omega
    simp [hin, hic]

end Rotate

theorem extend_eq {n : Nat} (h0 : 0 < n) (hn : n ≤ 64) (x : BitVec 64) :
    extend n x = some ((x.setWidth n).signExtend 64) := by
  unfold extend
  rw [difference_eq hn, Option.bind_eq_bind, Option.bind_some]
  refine congrArg some (BitVec.eq_of_getLsbD_eq fun i hi => ?_)
  have hsign : (x <<< (64 - n)).msb = (x.setWidth n).msb := by
    rw [BitVec.msb_eq_getLsbD_last, BitVec.msb_eq_getLsbD_last, BitVec.getLsbD_shiftLeft,
      BitVec.getLsbD_setWidth, show 64 - 1 - (64 - n) = n - 1 by omega]
    have hout : ¬ 64 - 1 < 64 - n := by omega
    simp [hout, h0]
  rw [BitVec.getLsbD_sshiftRight, BitVec.getLsbD_signExtend, hsign, BitVec.getLsbD_shiftLeft,
    BitVec.getLsbD_setWidth, Nat.add_sub_cancel_left]
  by_cases hin : i < n
  · have hlt : 64 - n + i < 64 := by omega
    simp [hin, hlt, hi]
  · have hge : ¬ 64 - n + i < 64 := by omega
    simp [hin, hge, hi]

/-! ## Shifts -/

/-- What a shift gives: its result, and the flags that it sets. -/
def shifted (w : Width) (res : Long) (out : Bool) (overflow : Option Bool) : Long × FlagUpdate :=
  (res, { FlagUpdate.ofResult res w with carry := some out, overflow })

/-- What a rotation gives. -/
def rotated (res : Long) (out : Bool) (overflow : Option Bool) : Long × FlagUpdate :=
  (res, { carry := some out, overflow })

/-- A value with the carry on top. -/
def withCarry (w : Width) (x : BitVec 64) (carry : Bool) : BitVec 64 :=
  x ||| (BitVec.ofBool carry).setWidth 64 <<< w.bits

/-- A shift or rotation in 64 bits. -/
def shift (op : ShiftOp) (a : Long) (count : Nat) (carry : Bool) (w : Width) :
    Option (Long × FlagUpdate) :=
  let a := a &&& w.mask
  let x : BitVec 64 := a.setWidth 64
  if count = 0 then some (a, {})
  else match op with
  | .shl | .sal =>
    let wide := x <<< count
    let res := wide.setWidth 32 &&& w.mask
    let out := decide (count ≤ w.bits) && wide.getLsbD w.bits
    some (shifted w res out (if count = 1 then some (w.sign res != out) else none))
  | .shr => do
    let last ← difference count 1
    let res := if w.bits ≤ count then 0 else a >>> count
    let out := decide (count ≤ w.bits) && x.getLsbD last
    return shifted w res out (if count = 1 then some (w.sign a) else none)
  | .sar => do
    let signed ← extend w.bits x
    let places := min count w.bits
    let last ← difference places 1
    let res := (signed.sshiftRight places).setWidth 32 &&& w.mask
    return shifted w res (signed.getLsbD last) (if count = 1 then some false else none)
  | .rol => do
    let wide ← rotateLeft w.bits x count
    let res := wide.setWidth 32
    let out := res.getLsbD 0
    return rotated res out (if count = 1 then some (w.sign res != out) else none)
  | .ror => do
    let wide ← rotateRight w.bits x count
    let res := wide.setWidth 32
    let out := w.sign res
    if count = 1 then
      let second ← difference w.bits 2
      return rotated res out (some (out != res.getLsbD second))
    else return rotated res out none
  | .rcl => do
    let width ← sum w.bits 1
    let wide ← rotateLeft width (withCarry w x carry) count
    let res := wide.setWidth 32 &&& w.mask
    let out := wide.getLsbD w.bits
    return rotated res out (if count = 1 then some (w.sign res != out) else none)
  | .rcr => do
    let width ← sum w.bits 1
    let wide ← rotateRight width (withCarry w x carry) count
    let res := wide.setWidth 32 &&& w.mask
    let second ← difference w.bits 2
    let overflow := w.sign res != res.getLsbD second
    return rotated res (wide.getLsbD w.bits) (if count = 1 then some overflow else none)

section Shift

variable {w : Width}

theorem setWidth_32_and_mask {n : Nat} (x : BitVec n) :
    x.setWidth 32 &&& w.mask = (x.setWidth w.bits).setWidth 32 := by
  apply BitVec.eq_of_getLsbD_eq
  intro i hi
  simp only [BitVec.getLsbD_setWidth, BitVec.getLsbD_and, w.getLsbD_mask, hi, decide_true,
    Bool.true_and]
  exact Bool.and_comm _ _

theorem and_mask_eq (a : Long) : a &&& w.mask = (a.setWidth w.bits).setWidth 32 := by
  rw [← setWidth_32_and_mask, BitVec.setWidth_eq]

variable (x : BitVec w.bits) (count : Nat)

theorem setWidth_bits : (x.setWidth 32).setWidth w.bits = x := by
  rw [BitVec.setWidth_setWidth_of_le x w.bits_le, BitVec.setWidth_eq]

theorem getLsbD_setWidth_32 {i : Nat} (hi : i < w.bits) :
    (x.setWidth 32).getLsbD i = x.getLsbD i := by
  have hbits := w.bits_le
  have hlt : i < 32 := by omega
  simp [hlt]

theorem sign_setWidth : w.sign (x.setWidth 32) = x.msb := by
  have hpos := w.bits_pos
  rw [Width.sign_eq_getLsbD, BitVec.msb_eq_getLsbD_last, getLsbD_setWidth_32 x (by omega)]

theorem setWidth_64 : (x.setWidth 32).setWidth 64 = x.setWidth 64 := by
  have hbits := w.bits_le
  apply BitVec.eq_of_getLsbD_eq
  intro i hi
  rw [BitVec.getLsbD_setWidth, BitVec.getLsbD_setWidth, BitVec.getLsbD_setWidth]
  by_cases hin : i < 32
  · simp [hin]
  · have hout : x.getLsbD i = false := BitVec.getLsbD_of_ge _ _ (by omega)
    simp [hout]

theorem setWidth_64_32 : (x.setWidth 64).setWidth 32 = x.setWidth 32 :=
  BitVec.setWidth_setWidth_of_le _ (by decide)

theorem shiftLeft_eq : (x.setWidth 64 <<< count).setWidth 32 &&& w.mask =
    (x <<< count).setWidth 32 := by
  have hbits := w.bits_le
  rw [setWidth_32_and_mask]
  refine congrArg (BitVec.setWidth 32) (BitVec.eq_of_getLsbD_eq fun i hi => ?_)
  have hi64 : i < 64 := by omega
  have hlt : i - count < 64 := by omega
  simp only [BitVec.getLsbD_setWidth, BitVec.getLsbD_shiftLeft, hi, hi64, hlt, decide_true,
    Bool.true_and]

theorem shiftRight_eq : (if w.bits ≤ count then 0 else x.setWidth 32 >>> count) =
    (x >>> count).setWidth 32 := by
  have hbits := w.bits_le
  apply BitVec.eq_of_getLsbD_eq
  intro i hi
  rw [BitVec.getLsbD_setWidth, BitVec.getLsbD_ushiftRight]
  by_cases hin : count + i < w.bits
  · have hcount : ¬ w.bits ≤ count := by omega
    rw [if_neg hcount, BitVec.getLsbD_ushiftRight, getLsbD_setWidth_32 x hin]
    simp [hi]
  · have hout : x.getLsbD (count + i) = false := BitVec.getLsbD_of_ge _ _ (by omega)
    split <;> simp [hout]

theorem sshiftRight_eq :
    ((x.signExtend 64).sshiftRight (min count w.bits)).setWidth 32 &&& w.mask =
      (x.sshiftRight count).setWidth 32 := by
  have hbits := w.bits_le
  have hpos := w.bits_pos
  rw [setWidth_32_and_mask]
  refine congrArg (BitVec.setWidth 32) (BitVec.eq_of_getLsbD_eq fun i hi => ?_)
  rw [BitVec.getLsbD_setWidth, BitVec.getLsbD_sshiftRight, BitVec.getLsbD_sshiftRight,
    BitVec.getLsbD_signExtend]
  have hi64 : ¬ 64 ≤ i := by omega
  have hin0 : ¬ w.bits ≤ i := by omega
  have hplace : min count w.bits + i < 64 := by omega
  by_cases hin : count + i < w.bits
  · have hmin : min count w.bits = count := by omega
    have hlt : count + i < 64 := by omega
    simp [hi, hi64, hin0, hin, hmin, hlt]
  · have hout : ¬ min count w.bits + i < w.bits := by omega
    simp [hi, hi64, hin0, hin, hplace, hout]

theorem getLsbD_signExtend_last :
    (x.signExtend 64).getLsbD (min count w.bits - 1) = (x.sshiftRight (count - 1)).getLsbD 0 := by
  have hbits := w.bits_le
  have hpos := w.bits_pos
  rw [BitVec.getLsbD_signExtend, BitVec.getLsbD_sshiftRight, Nat.add_zero]
  have hplace : min count w.bits - 1 < 64 := by omega
  have hin0 : ¬ w.bits ≤ 0 := by omega
  by_cases hin : count - 1 < w.bits
  · have hmin : min count w.bits - 1 = count - 1 := by omega
    have hlt : count - 1 < 64 := by omega
    simp [hin, hin0, hmin, hlt]
  · have hmin : min count w.bits - 1 = w.bits - 1 := by omega
    have hlt : w.bits - 1 < 64 := by omega
    simp [hin, hin0, hmin, hlt, hpos, BitVec.msb_eq_getLsbD_last]

theorem withCarry_eq (carry : Bool) :
    withCarry w (x.setWidth 64) carry = (BitVec.cons carry x).setWidth 64 := by
  have hbits := w.bits_le
  apply BitVec.eq_of_getLsbD_eq
  intro i hi
  rw [withCarry, BitVec.getLsbD_or, BitVec.getLsbD_shiftLeft, BitVec.getLsbD_setWidth,
    BitVec.getLsbD_setWidth, BitVec.getLsbD_setWidth, BitVec.getLsbD_cons]
  rcases Nat.lt_trichotomy i w.bits with hlt | rfl | hgt
  · have hne : i ≠ w.bits := by omega
    simp [hi, hlt, hne]
  · have hlt : w.bits < 64 := by omega
    simp [hlt]
  · have hout : x.getLsbD i = false := BitVec.getLsbD_of_ge _ _ (by omega)
    have hne : i ≠ w.bits := by omega
    have hone : i - w.bits ≠ 0 := by omega
    simp [hi, hout, hne, hone]

theorem getLsbD_shiftLeft_out :
    (decide (count ≤ w.bits) && (x.setWidth 64 <<< count).getLsbD w.bits) =
      (decide (count ≤ w.bits) && x.getLsbD (w.bits - count)) := by
  have hbits := w.bits_le
  have hlt : w.bits < 64 := by omega
  have hplace : w.bits - count < 64 := by omega
  rw [BitVec.getLsbD_shiftLeft, BitVec.getLsbD_setWidth]
  by_cases hcount : count ≤ w.bits
  · have hge : ¬ w.bits < count := by omega
    simp [hlt, hplace, hge]
  · simp [hcount]

theorem getLsbD_shiftRight_out :
    (decide (count ≤ w.bits) && (x.setWidth 64).getLsbD (count - 1)) = x.getLsbD (count - 1) := by
  have hbits := w.bits_le
  rw [BitVec.getLsbD_setWidth]
  by_cases hcount : count ≤ w.bits
  · have hlt : count - 1 < 64 := by omega
    simp [hcount, hlt]
  · have hout : x.getLsbD (count - 1) = false := BitVec.getLsbD_of_ge _ _ (by omega)
    simp [hcount, hout]

theorem getLsbD_top (y : BitVec (w.bits + 1)) : (y.setWidth 64).getLsbD w.bits = y.msb := by
  have hbits := w.bits_le
  have hlt : w.bits < 64 := by omega
  rw [BitVec.getLsbD_setWidth, BitVec.msb_eq_getLsbD_last]
  simp [hlt]

variable (op : ShiftOp) (a : Long) (carry : Bool) {count}

theorem alu_shift_of_setsResult (h0 : count ≠ 0) (hop : Alu.shiftSetsResult op = true) :
    Alu.shift op a count carry w =
      let x := a.setWidth w.bits
      let r := Alu.shiftBits op x count carry
      shifted w (r.1.setWidth 32) r.2
        (if count = 1 then some (Alu.shiftOverflow op x r.1 r.2) else none) := by
  unfold Alu.shift shifted
  rw [if_neg h0, hop]
  rfl

theorem alu_shift_of_rotates (h0 : count ≠ 0) (hop : Alu.shiftSetsResult op = false) :
    Alu.shift op a count carry w =
      let x := a.setWidth w.bits
      let r := Alu.shiftBits op x count carry
      rotated (r.1.setWidth 32) r.2
        (if count = 1 then some (Alu.shiftOverflow op x r.1 r.2) else none) := by
  unfold Alu.shift rotated
  rw [if_neg h0, hop]
  rfl

/-- **No shift fails**: no sum of places is too large, and no difference is negative. What it gives
is the shift of a bit vector. -/
theorem shift_eq : shift op a count carry w = some (Alu.shift op a count carry w) := by
  have hbits := w.bits_le
  have hpos := w.bits_pos
  by_cases h0 : count = 0
  · subst h0
    rfl
  · have hlast : difference count 1 = some (count - 1) := difference_eq (by omega)
    have hsecond : difference w.bits 2 = some (w.bits - 2) := by cases w <;> rfl
    have hwidth : sum w.bits 1 = some (w.bits + 1) := sum_eq (by omega)
    have hcut : ∀ y : BitVec (w.bits + 1),
        (y.setWidth 64).setWidth w.bits = y.setWidth w.bits :=
      fun y => BitVec.setWidth_setWidth_of_le y (by omega)
    unfold shift
    rw [if_neg h0, and_mask_eq, setWidth_64]
    cases op with
    | shl | sal =>
      rw [alu_shift_of_setsResult _ a carry h0 rfl]
      simp only [shiftLeft_eq, getLsbD_shiftLeft_out, sign_setWidth]
      rfl
    | shr =>
      rw [alu_shift_of_setsResult _ a carry h0 rfl]
      simp only [hlast, Option.bind_eq_bind, Option.bind_some, shiftRight_eq,
        getLsbD_shiftRight_out, sign_setWidth]
      rfl
    | sar =>
      have hplace : difference (min count w.bits) 1 = some (min count w.bits - 1) :=
        difference_eq (by omega)
      have hextend : extend w.bits ((a.setWidth w.bits).setWidth 64) =
          some ((a.setWidth w.bits).signExtend 64) := by
        rw [extend_eq hpos (by omega), BitVec.setWidth_setWidth_of_le _ (by omega),
          BitVec.setWidth_eq]
      rw [alu_shift_of_setsResult _ a carry h0 rfl]
      simp only [hextend, hplace, Option.bind_eq_bind, Option.bind_some, sshiftRight_eq,
        getLsbD_signExtend_last]
      rfl
    | rol =>
      rw [alu_shift_of_rotates _ a carry h0 rfl]
      simp only [rotateLeft_eq _ _ hpos (by omega : w.bits ≤ 64), Option.bind_eq_bind,
        Option.bind_some, setWidth_64_32, sign_setWidth, getLsbD_setWidth_32 _ hpos]
      rfl
    | ror =>
      rw [alu_shift_of_rotates _ a carry h0 rfl]
      simp only [rotateRight_eq _ _ hpos (by omega : w.bits ≤ 64), hsecond, Option.bind_eq_bind,
        Option.bind_some, setWidth_64_32, sign_setWidth,
        getLsbD_setWidth_32 _ (by omega : w.bits - 2 < w.bits)]
      split <;> rfl
    | rcl =>
      rw [alu_shift_of_rotates _ a carry h0 rfl]
      simp only [hwidth, withCarry_eq, Option.bind_eq_bind, Option.bind_some,
        rotateLeft_eq _ _ (Nat.succ_pos w.bits) (by omega : w.bits + 1 ≤ 64), getLsbD_top,
        setWidth_32_and_mask, hcut, sign_setWidth]
      rfl
    | rcr =>
      rw [alu_shift_of_rotates _ a carry h0 rfl]
      simp only [hwidth, hsecond, withCarry_eq, Option.bind_eq_bind, Option.bind_some,
        rotateRight_eq _ _ (Nat.succ_pos w.bits) (by omega : w.bits + 1 ≤ 64), getLsbD_top,
        setWidth_32_and_mask, hcut, sign_setWidth,
        getLsbD_setWidth_32 _ (by omega : w.bits - 2 < w.bits)]
      rfl

end Shift

end Checked

end Ia32
