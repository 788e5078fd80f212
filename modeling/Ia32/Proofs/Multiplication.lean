import Ia32.Proofs.WideArithmetic
import Mathlib.Tactic.Ring

/-!
# Multiplication

* `bmod_halves`: an integer cut in two halves; `Machine.pair_product`,
  `Machine.signedPair_signedProduct`: the two halves of a product are the product;
* `Machine.Multiplied`: what a multiplication leaves besides the product;
* **`multiply_exact`**: a multiplication by an operand that can be read gives the product of the
  accumulator, tells whether it is too large for the accumulator, changes nothing else, and is
  never too large for 64 bits.
-/

set_option autoImplicit false

namespace Ia32

open Ia32.Action

/-! ## Products in two halves -/

/-- An integer is known by its lowest bits and as many bits above them, up to twice as many. -/
theorem bmod_halves (n : Int) (k : Nat) :
    (n / 2 ^ k % 2 ^ k * 2 ^ k + n % 2 ^ k).bmod (2 ^ (2 * k)) = n.bmod (2 ^ (2 * k)) := by
  have hlow := Int.mul_ediv_add_emod n (2 ^ k)
  have hhigh := Int.mul_ediv_add_emod (n / 2 ^ k) (2 ^ k)
  have hcut : n = n / 2 ^ k % 2 ^ k * 2 ^ k + n % 2 ^ k +
      ((2 ^ (2 * k) : Nat) : Int) * (n / 2 ^ k / 2 ^ k) := by
    push_cast
    calc n = 2 ^ k * (n / 2 ^ k) + n % 2 ^ k := hlow.symm
      _ = 2 ^ k * (2 ^ k * (n / 2 ^ k / 2 ^ k) + n / 2 ^ k % 2 ^ k) + n % 2 ^ k := by rw [hhigh]
      _ = _ := by ring
  conv_rhs => rw [hcut]
  rw [Int.add_mul_bmod_self_left]

namespace Action

section Unsigned

variable {w : Width} {a b : Long} (ha : a.toNat < 2 ^ w.bits) (hb : b.toNat < 2 ^ w.bits)

include ha hb

theorem mul_div_lt : a.toNat * b.toNat / 2 ^ w.bits < 2 ^ w.bits :=
  Nat.div_lt_of_lt_mul (Nat.mul_lt_mul'' ha hb)

theorem toNat_product_high : (product a b w).2.1.toNat = a.toNat * b.toNat / 2 ^ w.bits := by
  rw [product, w.toNat_ofNat_and_mask, Nat.shiftRight_eq_div_pow,
    Nat.mod_eq_of_lt (mul_div_lt ha hb)]

theorem product_tooLarge :
    (product a b w).2.2 = true ↔ w.mask.toNat < a.toNat * b.toNat := by
  have hhigh := toNat_product_high ha hb
  have hpos := Nat.two_pow_pos w.bits
  have hzero : (product a b w).2.1 = 0 ↔ a.toNat * b.toNat / 2 ^ w.bits = 0 := by
    rw [← hhigh]
    exact BitVec.toNat_inj.symm
  change ((product a b w).2.1 != 0) = true ↔ _
  rw [bne_iff_ne, Ne, hzero, Nat.div_eq_zero_iff, w.toNat_mask]
  omega

end Unsigned

theorem signedProduct_tooLarge {w : Width} (a b : Long) :
    (signedProduct a b w).2.2 = true ↔ ¬ w.FitsSigned (w.signed a * w.signed b) := by
  rw [signedProduct, bne_iff_ne, Ne, Width.signed_truncate_eq_iff]

end Action

namespace Machine

variable (m : Machine) {w : Width} {a b : Long}

/-- **The halves of a product** of numbers without signs. -/
theorem pair_product (ha : a.toNat < 2 ^ w.bits) (hb : b.toNat < 2 ^ w.bits) :
    (m.withHalves w (product a b w).1 (product a b w).2.1).pair w = a.toNat * b.toNat := by
  have hlow : (product a b w).1.toNat = a.toNat * b.toNat % 2 ^ w.bits :=
    w.toNat_ofNat_and_mask _
  rw [pair_withHalves, hlow, toNat_product_high ha hb, Nat.mod_mod,
    Nat.mod_eq_of_lt (mul_div_lt ha hb), Nat.div_add_mod']

theorem signedPair_eq_bmod : m.signedPair w = (m.pair w : Int).bmod (2 ^ (2 * w.bits)) :=
  BitVec.toInt_ofNat' ..

/-- An integer cut in two halves, and put together again. -/
theorem signedPair_truncate {n : Int} (hle : -2 ^ (2 * w.bits) ≤ n * 2)
    (hlt : n * 2 < 2 ^ (2 * w.bits)) :
    (m.withHalves w (w.truncate n) (w.truncate (n >>> w.bits))).signedPair w = n := by
  have hpair : ((m.withHalves w (w.truncate n) (w.truncate (n >>> w.bits))).pair w : Int) =
      n / 2 ^ w.bits % 2 ^ w.bits * 2 ^ w.bits + n % 2 ^ w.bits := by
    rw [pair_withHalves, Nat.mod_eq_of_lt (w.truncate_toNat_lt _),
      Nat.mod_eq_of_lt (w.truncate_toNat_lt _)]
    push_cast
    rw [w.toNat_truncate, w.toNat_truncate, Int.shiftRight_eq_div_pow]
    push_cast
    rfl
  rw [signedPair_eq_bmod, hpair, bmod_halves]
  exact Int.bmod_eq_of_le_mul_two (by push_cast; exact hle) (by push_cast; exact hlt)

/-- **The halves of a product** of numbers with signs. -/
theorem signedPair_signedProduct (a b : Long) :
    (m.withHalves w (signedProduct a b w).1 (signedProduct a b w).2.1).signedPair w =
      w.signed a * w.signed b := by
  have hpow : (2 : Int) ^ (2 * w.bits) = 4 * (2 ^ (w.bits - 1) * 2 ^ (w.bits - 1)) := by
    cases w <;> rfl
  have hprod : |w.signed a * w.signed b| ≤ 2 ^ (w.bits - 1) * 2 ^ (w.bits - 1) := by
    rw [abs_mul]
    exact mul_le_mul (w.abs_signed_le a) (w.abs_signed_le b) (abs_nonneg _) (by positivity)
  obtain ⟨hlow, hhigh⟩ := abs_le.mp hprod
  have hpos : (0 : Int) < 2 ^ (w.bits - 1) * 2 ^ (w.bits - 1) := by positivity
  exact signedPair_truncate m (by omega) (by omega)

/-! ## Multiplications -/

/-- The machine with the two halves of a product, and whether it is too large. -/
def withProduct (w : Width) (p : Long × Long × Bool) : Machine :=
  { m.withHalves w p.1 p.2.1 with
    flags := { m.flags with carry := p.2.2, overflow := p.2.2 } }

theorem pair_withProduct (p : Long × Long × Bool) :
    (m.withProduct w p).pair w = (m.withHalves w p.1 p.2.1).pair w := rfl

theorem signedPair_withProduct (p : Long × Long × Bool) :
    (m.withProduct w p).signedPair w = (m.withHalves w p.1 p.2.1).signedPair w := rfl

/-- What a multiplication leaves besides the product: the carry and overflow flags tell whether it
is too large, and nothing else is changed. -/
structure Multiplied (m : Machine) (w : Width) (tooLarge : Prop) (m' : Machine) : Prop where
  carry : m'.flags.carry = true ↔ tooLarge
  overflow : m'.flags.overflow = m'.flags.carry
  within : m.Within ⟨{(halves w).1, (halves w).2}, ∅, {.carry, .overflow}, False⟩ m'

theorem multiplied {tooLarge : Prop} {p : Long × Long × Bool} (h : p.2.2 = true ↔ tooLarge) :
    m.Multiplied w tooLarge (m.withProduct w p) where
  carry := h
  overflow := rfl
  within := by
    refine (within_withHalves m _ _ subset_rfl).trans (within_flags fun flag hflag => ?_)
    simp only [Set.mem_insert_iff, Set.mem_singleton_iff, not_or] at hflag
    cases flag with
    | carry => exact absurd rfl hflag.1
    | overflow => exact absurd rfl hflag.2
    | _ => rfl

theorem eq_of_withProduct {p : Long × Long × Bool} (hlow : p.1 &&& w.mask = p.1)
    (hhigh : p.2.1 &&& w.mask = p.2.1) :
    p = ((m.withProduct w p).get (halves w).1, (m.withProduct w p).get (halves w).2,
      (m.withProduct w p).flags.carry) := by
  have hlow' := (m.get_low_withHalves p.1 p.2.1).trans hlow
  have hhigh' := (m.get_high_withHalves p.1 p.2.1).trans hhigh
  exact Prod.ext hlow'.symm (Prod.ext hhigh'.symm rfl)

end Machine

theorem Action.execute_multiply {m : Machine} {w : Width} {op : Operand} {b : Long}
    (hb : m.readOperand op w = .ok b) {o : UnaryOp}
    {f : Long → Long → Width → Long × Long × Bool} (ho : unary o = multiply f) :
    execute ⟨.unary o, w, [op]⟩ m =
      .ok true (m.withProduct w (f (m.get (halves w).1) b w)) := by
  have hdst : (⟨.unary o, w, [op]⟩ : Instr).destination = pure op := Instr.destination_eq rfl
  rw [execute_unary, ho, multiply, hdst, pure_bind, read_bind hb]
  rfl

/-- **Multiplication is exact.** -/
theorem multiply_exact (m : Machine) (w : Width) (op : Operand) (b : Long)
    (hb : m.readOperand op w = .ok b) :
    (∃ m', execute ⟨.unary .mul, w, [op]⟩ m = .ok true m' ∧
      m'.pair w = (m.get (halves w).1).toNat * b.toNat ∧
      m.Multiplied w (w.mask.toNat < (m.get (halves w).1).toNat * b.toNat) m' ∧
      Checked.product (m.get (halves w).1) b w =
        some (m'.get (halves w).1, m'.get (halves w).2, m'.flags.carry)) ∧
    ∃ m', execute ⟨.unary .imul, w, [op]⟩ m = .ok true m' ∧
      m'.signedPair w = w.signed (m.get (halves w).1) * w.signed b ∧
      m.Multiplied w (¬ w.FitsSigned (w.signed (m.get (halves w).1) * w.signed b)) m' ∧
      Checked.signedProduct (m.get (halves w).1) b w =
        some (m'.get (halves w).1, m'.get (halves w).2, m'.flags.carry) := by
  have ha := m.get_lt (width_halves w).1
  have hb' := m.readOperand_lt hb
  constructor
  · refine ⟨_, execute_multiply (f := product) hb rfl, ?_,
      m.multiplied (product_tooLarge ha hb'), ?_⟩
    · rw [m.pair_withProduct, m.pair_product ha hb']
    · rw [Checked.product_eq]
      exact congrArg some (m.eq_of_withProduct (w.and_mask_and_mask _) (w.and_mask_and_mask _))
  · refine ⟨_, execute_multiply (f := signedProduct) hb rfl, ?_,
      m.multiplied (signedProduct_tooLarge _ b), ?_⟩
    · rw [m.signedPair_withProduct, m.signedPair_signedProduct]
    · rw [Checked.signedProduct_eq]
      exact congrArg some (m.eq_of_withProduct (w.truncate_and_mask _) (w.truncate_and_mask _))

/-- A machine with 2 in `al`, and in `ah` what is 255 without a sign and -1 with one. -/
def twoAndMinusOne : Machine where
  registers := { general := #v[0xFF02, 0, 0, 0, 0, 0, 0, 0] }
  memory := .zeros 0

/-- The product by a half that it replaces. Without signs it is too large for the other half. -/
theorem multiply_exact_twoAndMinusOne :
    (∃ m', execute ⟨.unary .mul, .byte, [.reg .ah]⟩ twoAndMinusOne = .ok true m' ∧
      m'.pair .byte = 510 ∧ m'.flags.carry = true) ∧
    ∃ m', execute ⟨.unary .imul, .byte, [.reg .ah]⟩ twoAndMinusOne = .ok true m' ∧
      m'.signedPair .byte = -2 ∧ ¬ m'.flags.carry = true := by
  have hread : twoAndMinusOne.readOperand (.reg .ah) .byte = .ok 0xFF := by decide +kernel
  have hlow : twoAndMinusOne.get (halves .byte).1 = 2 := by decide +kernel
  obtain ⟨⟨m₁, hmul, hpair, hflags, -⟩, m₂, himul, hsigned, hflags', -⟩ :=
    multiply_exact twoAndMinusOne .byte (.reg .ah) 0xFF hread
  rw [hlow] at hpair hflags hsigned hflags'
  refine ⟨⟨m₁, hmul, hpair, hflags.carry.mpr (by decide)⟩, m₂, himul, hsigned, ?_⟩
  rw [hflags'.carry]
  decide

end Ia32
