import Ia32.Proofs.Halves
import Ia32.Proofs.WideShift

/-!
# Products and quotients in 64 bits

Numbers of up to 32 bits are multiplied, and those of up to 64 bits divided, in 64 bits. Signs are
extended by shifts there, and results are cut down to a width.

* `Checked.times`, `Checked.signedTimes`, `Checked.signedDivide`: a product and a quotient, if they
  fit in 64 bits;
* `Checked.product`, **`Checked.product_eq`**, `Checked.signedProduct`,
  **`Checked.signedProduct_eq`**: products, of which none is too large for 64 bits;
* `Checked.dividend`, `Checked.quotient`, **`Checked.quotient_eq`**, `Checked.signedQuotient`,
  **`Checked.signedQuotient_eq`**: quotients; the only one that is too large for 64 bits is too
  large for its place, too.
-/

set_option autoImplicit false

namespace Ia32

namespace Checked

/-! ## Operations in 64 bits -/

/-- A product of numbers without signs, if it fits. -/
def times (x y : BitVec 64) : Option (BitVec 64) :=
  if x.umulOverflow y then none else some (x * y)

/-- A product of numbers with signs, if it fits. -/
def signedTimes (x y : BitVec 64) : Option (BitVec 64) :=
  if x.smulOverflow y then none else some (x * y)

/-- A quotient of numbers with signs, and the remainder, if there is one and it fits. -/
def signedDivide (x y : BitVec 64) : Option (BitVec 64 × BitVec 64) :=
  if y = 0 ∨ x.sdivOverflow y = true then none else some (x.sdiv y, x.srem y)

/-! ## Products and quotients -/

/-- The halves of a product of numbers without signs. -/
def product (a b : Long) (w : Width) : Option (Long × Long × Bool) := do
  let product ← times (a.setWidth 64) (b.setWidth 64)
  let high := (product >>> w.bits).setWidth 32 &&& w.mask
  return (product.setWidth 32 &&& w.mask, high, high != 0)

/-- The halves of a product of numbers with signs. -/
def signedProduct (a b : Long) (w : Width) : Option (Long × Long × Bool) := do
  let product ← signedTimes (← extend w.bits (a.setWidth 64)) (← extend w.bits (b.setWidth 64))
  let low := product.setWidth 32 &&& w.mask
  let high := (product.sshiftRight w.bits).setWidth 32 &&& w.mask
  return (low, high, (← extend w.bits (low.setWidth 64)) != product)

/-- The number in two halves. -/
def dividend (low high : Long) (w : Width) : BitVec 64 :=
  high.setWidth 64 <<< w.bits ||| low.setWidth 64

/-- The quotient and the remainder of numbers without signs. -/
def quotient (dividend : BitVec 64) (divisor : Long) (w : Width) : Except Fault (Long × Long) :=
  let q := dividend / divisor.setWidth 64
  if w.mask.setWidth 64 < q then .error .quotientTooLarge
  else .ok (q.setWidth 32, (dividend % divisor.setWidth 64).setWidth 32)

/-- The quotient, rounded toward zero, and the remainder of numbers with signs. -/
def signedQuotient (dividend : BitVec 64) (divisor : Long) (w : Width) :
    Option (Except Fault (Long × Long)) := do
  let dividend ← extend (2 * w.bits) dividend
  let divisor ← extend w.bits (divisor.setWidth 64)
  match signedDivide dividend divisor with
  | none => return .error .quotientTooLarge
  | some (q, r) =>
    let low := q.setWidth 32 &&& w.mask
    if (← extend w.bits (low.setWidth 64)) = q then return .ok (low, r.setWidth 32 &&& w.mask)
    else return .error .quotientTooLarge

/-! ## Numbers with signs -/

variable {w : Width}

theorem setWidth_ofInt (n : Int) : (BitVec.ofInt 64 n).setWidth 32 = BitVec.ofInt 32 n := by
  apply BitVec.eq_of_toNat_eq
  rw [BitVec.toNat_setWidth, BitVec.toNat_ofInt, BitVec.toNat_ofInt]
  omega

theorem setWidth_eq_truncate {x : BitVec 64} {n : Int} (h : x.toInt = n) :
    x.setWidth 32 &&& w.mask = w.truncate n := by
  rw [← h, Width.truncate, ← setWidth_ofInt, BitVec.ofInt_toInt]

theorem extend_bits (v : Long) : ∃ x, extend w.bits (v.setWidth 64) = some x ∧
    x.toInt = w.signed v := by
  have hbits := w.bits_le
  refine ⟨_, extend_eq w.bits_pos (by omega) _, ?_⟩
  rw [BitVec.setWidth_setWidth_of_le _ (by omega), BitVec.toInt_signExtend_of_le (by omega)]
  rfl

/-- A number that fits in 32 bits fits in any width that it is extended from. -/
theorem natAbs_signed_le (v : Long) : (w.signed v).natAbs ≤ 2 ^ 31 := by
  obtain ⟨hle, hlt⟩ := w.fitsSigned_signed v
  have hpow : (2 : Int) ^ (w.bits - 1) ≤ 2 ^ 31 :=
    pow_le_pow_right₀ (by decide) (by have := w.bits_le; omega)
  omega

/-! ## Products -/

theorem times_eq {x y : BitVec 64} (h : x.toNat * y.toNat < 2 ^ 64) :
    times x y = some (BitVec.ofNat 64 (x.toNat * y.toNat)) := by
  have hfits : ¬ x.umulOverflow y = true := by simpa [BitVec.umulOverflow] using h
  rw [times, if_neg hfits]
  exact congrArg some (BitVec.eq_of_toNat_eq (by rw [BitVec.toNat_mul, BitVec.toNat_ofNat]))

theorem signedTimes_eq {x y : BitVec 64} (hle : -2 ^ 63 ≤ x.toInt * y.toInt)
    (hlt : x.toInt * y.toInt < 2 ^ 63) :
    ∃ p, signedTimes x y = some p ∧ p.toInt = x.toInt * y.toInt := by
  have hfits : ¬ x.smulOverflow y = true := by
    simp only [BitVec.smulOverflow, Bool.or_eq_true, decide_eq_true_eq]
    omega
  exact ⟨x * y, if_neg hfits, BitVec.toInt_mul_of_not_smulOverflow hfits⟩

/-- **A product of numbers without signs** is never too large for 64 bits. -/
theorem product_eq (a b : Long) : product a b w = some (Action.product a b w) := by
  have hlt : a.toNat * b.toNat < 2 ^ 32 * 2 ^ 32 := Nat.mul_lt_mul'' a.isLt b.isLt
  rw [← pow_add] at hlt
  have hwide : ∀ v : Long, (v.setWidth 64).toNat = v.toNat := fun v =>
    BitVec.toNat_setWidth_of_le (by decide)
  have hshift : BitVec.ofNat 64 (a.toNat * b.toNat) >>> w.bits =
      BitVec.ofNat 64 ((a.toNat * b.toNat) >>> w.bits) := by
    apply BitVec.eq_of_toNat_eq
    rw [BitVec.toNat_ushiftRight, BitVec.toNat_ofNat, BitVec.toNat_ofNat, Nat.mod_eq_of_lt hlt,
      Nat.mod_eq_of_lt (lt_of_le_of_lt (Nat.shiftRight_le _ _) hlt)]
  unfold product
  rw [times_eq (by rwa [hwide, hwide]), hwide, hwide, Option.bind_eq_bind, Option.bind_some, hshift,
    BitVec.setWidth_ofNat_of_le (by decide), BitVec.setWidth_ofNat_of_le (by decide)]
  rfl

/-- **A product of numbers with signs** is never too large for 64 bits. -/
theorem signedProduct_eq (a b : Long) :
    signedProduct a b w = some (Action.signedProduct a b w) := by
  obtain ⟨x, hx, hxa⟩ := extend_bits (w := w) a
  obtain ⟨y, hy, hyb⟩ := extend_bits (w := w) b
  have hp : (x.toInt * y.toInt).natAbs ≤ 2 ^ 31 * 2 ^ 31 := by
    rw [hxa, hyb, Int.natAbs_mul]
    exact Nat.mul_le_mul (natAbs_signed_le a) (natAbs_signed_le b)
  obtain ⟨p, htimes, hpxy⟩ := signedTimes_eq (x := x) (y := y) (by omega) (by omega)
  rw [hxa, hyb] at hpxy
  obtain ⟨z, hz, hzp⟩ := extend_bits (w := w) (w.truncate (w.signed a * w.signed b))
  have hhigh : (p.sshiftRight w.bits).toInt = (w.signed a * w.signed b) >>> w.bits := by
    rw [BitVec.toInt_sshiftRight, hpxy]
  unfold signedProduct
  simp only [hx, hy, htimes, Option.bind_eq_bind, Option.bind_some, setWidth_eq_truncate hpxy,
    setWidth_eq_truncate hhigh, hz]
  have hne : (z != p) = (z.toInt != p.toInt) := by
    rw [bne, bne, Bool.eq_iff_iff]
    simp [BitVec.toInt_inj]
  rw [hne, hzp, hpxy]
  rfl

/-! ## Quotients -/

theorem dividend_eq (m : Machine) :
    dividend (m.get (Action.halves w).1) (m.get (Action.halves w).2) w =
      BitVec.ofNat 64 (m.pair w) := by
  have hbits := w.bits_le
  have hlow := m.get_lt (Action.width_halves w).1
  have hpair : m.pair w < 2 ^ 64 :=
    lt_of_lt_of_le m.pair_lt (Nat.pow_le_pow_right (by decide) (by omega))
  rw [Machine.pair, ← Nat.shiftLeft_eq] at hpair ⊢
  apply BitVec.eq_of_toNat_eq
  have hhigh : (m.get (Action.halves w).2).toNat <<< w.bits < 2 ^ 64 := by omega
  rw [dividend, BitVec.toNat_or, BitVec.toNat_shiftLeft, BitVec.toNat_ofNat,
    BitVec.toNat_setWidth_of_le (by decide), BitVec.toNat_setWidth_of_le (by decide),
    Nat.mod_eq_of_lt hpair, Nat.mod_eq_of_lt hhigh, Nat.shiftLeft_add_eq_or_of_lt hlow]

/-- **A quotient of numbers without signs**, in 64 bits. -/
theorem quotient_eq {n : Nat} (hn : n < 2 ^ 64) (v : Long) :
    quotient (BitVec.ofNat 64 n) v w = Action.quotient n v w := by
  have hv : (v.setWidth 64).toNat = v.toNat := BitVec.toNat_setWidth_of_le (by decide)
  have hmask : (w.mask.setWidth 64).toNat = w.mask.toNat :=
    BitVec.toNat_setWidth_of_le (by decide)
  have hle : n / v.toNat < 2 ^ 64 := lt_of_le_of_lt (Nat.div_le_self _ _) hn
  have hdiv : BitVec.ofNat 64 n / v.setWidth 64 = BitVec.ofNat 64 (n / v.toNat) := by
    apply BitVec.eq_of_toNat_eq
    rw [BitVec.toNat_udiv, BitVec.toNat_ofNat, BitVec.toNat_ofNat, hv, Nat.mod_eq_of_lt hn,
      Nat.mod_eq_of_lt hle]
  have hmod : BitVec.ofNat 64 n % v.setWidth 64 = BitVec.ofNat 64 (n % v.toNat) := by
    apply BitVec.eq_of_toNat_eq
    rw [BitVec.toNat_umod, BitVec.toNat_ofNat, BitVec.toNat_ofNat, hv, Nat.mod_eq_of_lt hn,
      Nat.mod_eq_of_lt (lt_of_le_of_lt (Nat.mod_le _ _) hn)]
  unfold quotient Action.quotient
  simp only [hdiv, hmod, BitVec.lt_def, hmask, BitVec.toNat_ofNat, Nat.mod_eq_of_lt hle,
    BitVec.setWidth_ofNat_of_le (by decide : 32 ≤ 64)]

/-- The one quotient of numbers with signs that does not fit in 64 bits. -/
theorem sdivOverflow_iff {x y : BitVec 64} :
    x.sdivOverflow y = true ↔ x.toInt = -2 ^ 63 ∧ y.toInt = -1 := by
  have hx : x = BitVec.intMin 64 ↔ x.toInt = -2 ^ 63 := BitVec.toInt_inj.symm
  have hy : y = BitVec.allOnes 64 ↔ y.toInt = -1 := BitVec.toInt_inj.symm
  rw [BitVec.sdivOverflow_eq, ← hx, ← hy]
  simp

theorem signedDivide_eq {x y : BitVec 64} (hy : y.toInt ≠ 0)
    (h : ¬ (x.toInt = -2 ^ 63 ∧ y.toInt = -1)) :
    ∃ q r, signedDivide x y = some (q, r) ∧ q.toInt = x.toInt.tdiv y.toInt ∧
      r.toInt = x.toInt.tmod y.toInt := by
  have hzero : y ≠ 0 := fun h0 => hy (by rw [h0]; rfl)
  have hne : x ≠ BitVec.intMin 64 ∨ y ≠ -1#64 := by
    by_contra hboth
    rw [not_or, not_not, not_not] at hboth
    obtain ⟨rfl, rfl⟩ := hboth
    exact h ⟨by decide, by decide⟩
  refine ⟨x.sdiv y, x.srem y, if_neg ?_, BitVec.toInt_sdiv_of_ne_or_ne x y hne,
    BitVec.toInt_srem x y⟩
  rw [sdivOverflow_iff, not_or]
  exact ⟨hzero, h⟩

/-- **A quotient of numbers with signs**, in 64 bits. -/
theorem signedQuotient_eq (n : Nat) {v : Long} (hv : w.signed v ≠ 0) :
    signedQuotient (BitVec.ofNat 64 n) v w = some (Action.signedQuotient n v w) := by
  have hbits := w.bits_le
  have hpos := w.bits_pos
  obtain ⟨y, hy, hyv⟩ := extend_bits (w := w) v
  obtain ⟨x, hx, hxn⟩ : ∃ x, extend (2 * w.bits) (BitVec.ofNat 64 n) = some x ∧
      x.toInt = (BitVec.ofNat (2 * w.bits) n).toInt := by
    refine ⟨_, extend_eq (by omega) (by omega) _, ?_⟩
    rw [BitVec.setWidth_ofNat_of_le (by omega), BitVec.toInt_signExtend_of_le (by omega)]
  unfold signedQuotient Action.signedQuotient
  simp only [hx, hy, Option.bind_eq_bind, Option.bind_some, ← hxn, ← hyv]
  by_cases hover : x.toInt = -2 ^ 63 ∧ y.toInt = -1
  · obtain ⟨hmin, hneg⟩ := hover
    -- the quotient is one more than the largest number of 64 bits
    have hlarge : w.signed (w.truncate (x.toInt.tdiv y.toInt)) ≠ x.toInt.tdiv y.toInt := by
      have hle := natAbs_signed_le (w := w) (w.truncate (x.toInt.tdiv y.toInt))
      rw [hmin, hneg, show (-2 ^ 63 : Int).tdiv (-1) = 2 ^ 63 by decide] at hle ⊢
      omega
    have hnone : signedDivide x y = none := if_pos (.inr (sdivOverflow_iff.mpr ⟨hmin, hneg⟩))
    rw [hnone, if_neg hlarge]
    rfl
  · obtain ⟨q, r, hdivide, hq, hr⟩ := signedDivide_eq (hyv ▸ hv) hover
    obtain ⟨z, hz, hzq⟩ := extend_bits (w := w) (w.truncate (x.toInt.tdiv y.toInt))
    have heq : z = q ↔ w.signed (w.truncate (x.toInt.tdiv y.toInt)) = x.toInt.tdiv y.toInt := by
      rw [← BitVec.toInt_inj, hzq, hq]
    rw [hdivide]
    simp only [setWidth_eq_truncate hq, setWidth_eq_truncate hr, hz, Option.bind_some, heq]
    split <;> rfl

/-- **Quotients of the two halves** are those of 64 bits. -/
theorem quotients_eq (m : Machine) {v : Long} (hv : v.toNat < 2 ^ w.bits) (h0 : v ≠ 0) :
    let n := dividend (m.get (Action.halves w).1) (m.get (Action.halves w).2) w
    quotient n v w = Action.quotient (m.pair w) v w ∧
      signedQuotient n v w = some (Action.signedQuotient (m.pair w) v w) := by
  have hbits := w.bits_le
  have hpair : m.pair w < 2 ^ 64 :=
    lt_of_lt_of_le m.pair_lt (Nat.pow_le_pow_right (by decide) (by omega))
  dsimp only
  rw [dividend_eq]
  exact ⟨quotient_eq hpair v,
    signedQuotient_eq _ fun h => h0 ((Width.signed_eq_zero_iff hv).mp h)⟩

end Checked

end Ia32
