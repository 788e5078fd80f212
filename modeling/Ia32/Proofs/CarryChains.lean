import Ia32.Proofs.Addition
import Ia32.Proofs.Rotation
import Mathlib.Data.Nat.Digits.Lemmas
import Mathlib.Tactic.LinearCombination

/-!
# Chains of carries

Numbers of any length are added, subtracted, doubled and halved limb by limb, each carry passed on
to the next limb.

* `number`: the number that limbs make up; `digits_of_lt`: they are its digits;
* `Alu.chain`: an operation on one limb after another; `Alu.addChain`, `Alu.subChain`,
  `Alu.doubleChain`, `Alu.halveChain`;
* `Alu.Chained`: limbs that add up with carries; **`Alu.Chained.number_eq`**: so do the numbers;
* `Alu.shiftBits_rcl_one` and the like: a shift by one place doubles or halves;
* `Alu.chained_add`, `Alu.chained_sub`, `Alu.chained_double`, `Alu.chained_halve`: the chains are
  such;
* **`chains_exact`**: the chains give the digits of what is reckoned.
-/

set_option autoImplicit false

namespace Ia32

/-! ## Limbs -/

/-- The number that limbs make up, the lowest first. -/
def number (w : Width) (limbs : List Long) : Nat :=
  Nat.ofDigits (2 ^ w.bits) (limbs.map BitVec.toNat)

section Number

variable {w : Width} {limbs : List Long}

@[simp] theorem number_nil : number w [] = 0 := rfl

@[simp] theorem number_cons (a : Long) :
    number w (a :: limbs) = a.toNat + 2 ^ w.bits * number w limbs := by
  simp [number, Nat.ofDigits_cons]

theorem one_lt_base (w : Width) : 1 < 2 ^ w.bits := Nat.one_lt_two_pow w.bits_pos.ne'

theorem digits_of_lt {digits : List Nat} (h : ∀ d ∈ digits, d < 2 ^ w.bits) {n : Nat}
    (hn : Nat.ofDigits (2 ^ w.bits) digits = n) :
    digits = Nat.digitsAppend (2 ^ w.bits) digits.length n := by
  rw [← hn]
  exact ((Nat.setInvOn_digitsAppend_ofDigits (one_lt_base w) digits.length).1 ⟨rfl, h⟩).symm

theorem number_lt (h : ∀ a ∈ limbs, a.toNat < 2 ^ w.bits) :
    number w limbs < 2 ^ (w.bits * limbs.length) := by
  have hlt := Nat.ofDigits_lt_base_pow_length (one_lt_base w)
    (l := limbs.map BitVec.toNat) (by simpa using h)
  rwa [List.length_map, ← pow_mul] at hlt

end Number

namespace Alu

/-! ## Chains -/

/-- The results of an operation on one limb after another, and the last carry. Each carry is passed
on to the next limb. -/
def chain {α : Type} (f : α → Bool → Long × FlagUpdate) : Bool → List α → List Long × Bool
  | c, [] => ([], c)
  | c, x :: xs =>
    let r := f x c
    let rest := chain f (r.2.carry.getD c) xs
    (r.1 :: rest.1, rest.2)

/-- The sum of two numbers, limb by limb. -/
def addChain (w : Width) (as bs : List Long) : List Long × Bool :=
  chain (fun p c => add p.1 p.2 c w) false (as.zip bs)

/-- The difference of two numbers, limb by limb. -/
def subChain (w : Width) (as bs : List Long) : List Long × Bool :=
  chain (fun p c => sub p.1 p.2 c w) false (as.zip bs)

/-- One shift for the first limb, and another for all that follow. -/
def shifts (first next : ShiftOp) : List Long → List (ShiftOp × Long)
  | [] => []
  | a :: as => (first, a) :: as.map fun a => (next, a)

/-- Shifts by one place, of one limb after another. -/
def shiftChain (w : Width) (c : Bool) (limbs : List (ShiftOp × Long)) : List Long × Bool :=
  chain (fun p c => shift p.1 p.2 1 c w) c limbs

/-- A number doubled limb by limb, from the lowest. -/
def doubleChain (w : Width) (c : Bool) (as : List Long) : List Long × Bool :=
  shiftChain w c (shifts .shl .rcl as)

/-- A number halved limb by limb, from the highest. -/
def halveChain (w : Width) (c : Bool) (as : List Long) : List Long × Bool :=
  let r := shiftChain w c (shifts .shr .rcr as.reverse)
  (r.1.reverse, r.2)

/-! ## Limbs that add up -/

/-- Limbs that add up, each with the carry of those below. -/
inductive Chained (w : Width) :
    List Long → List Long → Bool → List Long → Bool → Prop
  | nil (c : Bool) : Chained w [] [] c [] c
  | cons {x y z : Long} {xs ys zs : List Long} {c d out : Bool} (h : Carried w x y c z d)
      (hs : Chained w xs ys d zs out) : Chained w (x :: xs) (y :: ys) c (z :: zs) out

section Chained

variable {w : Width} {xs ys zs : List Long} {c out : Bool} (h : Chained w xs ys c zs out)

include h

/-- **The numbers add up** if their limbs do. -/
theorem Chained.number_eq : number w xs + number w ys + c.toNat =
    number w zs + 2 ^ (w.bits * zs.length) * out.toNat := by
  induction h with
  | nil c => simp
  | @cons x y z xs ys zs c d out h hs ih =>
    simp only [number_cons, List.length_cons, Nat.mul_succ, pow_add]
    -- the carry of the lowest limb goes out of its equation and into that of the others
    linear_combination h.eq + 2 ^ w.bits * ih

theorem Chained.length_eq : xs.length = zs.length := by
  induction h with
  | nil c => rfl
  | cons h hs ih => simp [ih]

theorem Chained.left_lt : ∀ x ∈ xs, x.toNat < 2 ^ w.bits := by
  induction h with
  | nil c => simp
  | cons h hs ih => exact List.forall_mem_cons.mpr ⟨h.left, ih⟩

theorem Chained.sum_lt : ∀ z ∈ zs, z.toNat < 2 ^ w.bits := by
  induction h with
  | nil c => simp
  | cons h hs ih => exact List.forall_mem_cons.mpr ⟨h.sum, ih⟩

theorem Chained.concat {x y z : Long} {last : Bool} (htop : Carried w x y out z last) :
    Chained w (xs ++ [x]) (ys ++ [y]) c (zs ++ [z]) last := by
  induction h with
  | nil c => exact .cons htop (.nil last)
  | cons h hs ih => exact .cons h (ih htop)

end Chained

/-! ## Shifts by one place -/

section Bits

variable {n : Nat} (x : BitVec n) (c : Bool)

theorem toNat_eq_add_msb (y : BitVec (n + 1)) :
    y.toNat = (y.setWidth n).toNat + 2 ^ n * y.msb.toNat := by
  conv_lhs => rw [← BitVec.cons_msb_setWidth y, BitVec.toNat_cons', Nat.shiftLeft_eq]
  rw [Nat.add_comm, Nat.mul_comm]

theorem rotateLeft_cons (hn : 0 < n) : (BitVec.cons c x).rotateLeft 1 = x.concat c := by
  have hmod : 1 % (n + 1) = 1 := Nat.mod_eq_of_lt (by omega)
  apply BitVec.eq_of_getLsbD_eq
  intro i hi
  rw [BitVec.getLsbD_rotateLeft, hmod, BitVec.getLsbD_concat]
  rcases Nat.eq_zero_or_pos i with rfl | hpos
  · simp [BitVec.getElem_cons]
  · have hne : i - 1 ≠ n := by omega
    have hlt : ¬ i < 1 := by omega
    simp [BitVec.getLsbD_cons, hlt, hne, hpos.ne', hi]

theorem shiftBits_rcl_one (hn : 0 < n) : x.toNat + x.toNat + c.toNat =
    (shiftBits .rcl x 1 c).1.toNat + 2 ^ n * (shiftBits .rcl x 1 c).2.toNat := by
  rw [shiftBits, ← toNat_eq_add_msb, rotateLeft_cons x c hn, BitVec.toNat_concat]
  omega

theorem shiftBits_rcr_one (hn : 0 < n) :
    (shiftBits .rcr x 1 c).1.toNat + (shiftBits .rcr x 1 c).1.toNat +
      (shiftBits .rcr x 1 c).2.toNat = x.toNat + 2 ^ n * c.toNat := by
  rw [shiftBits_rcl_one _ _ hn, shiftBits_rcl_rcr]

theorem shiftBits_shl_one (hn : 0 < n) : x.toNat + x.toNat =
    (shiftBits .shl x 1 c).1.toNat + 2 ^ n * (shiftBits .shl x 1 c).2.toNat := by
  have hone : 1 ≤ n := hn
  have hlast : x.getLsbD (n - 1) = x.msb := (BitVec.msb_eq_getLsbD_last x).symm
  have hlt := x.isLt
  have hsize := Nat.two_pow_pred_add_two_pow_pred hn
  simp only [shiftBits, hone, decide_true, Bool.true_and, hlast, BitVec.toNat_shiftLeft,
    Nat.shiftLeft_eq, pow_one, BitVec.msb_eq_decide]
  by_cases hhalf : 2 ^ (n - 1) ≤ x.toNat
  · rw [Nat.mod_eq_sub_mod (by omega), Nat.mod_eq_of_lt (by omega)]
    simp only [hhalf, decide_true, Bool.toNat_true]
    omega
  · rw [Nat.mod_eq_of_lt (by omega)]
    simp only [hhalf, decide_false, Bool.toNat_false]
    omega

theorem shiftBits_shr_one : (shiftBits .shr x 1 c).1.toNat + (shiftBits .shr x 1 c).1.toNat +
    (shiftBits .shr x 1 c).2.toNat = x.toNat := by
  rw [shiftBits, BitVec.toNat_ushiftRight, Nat.sub_self, ← BitVec.testBit_toNat,
    Nat.toNat_testBit, Nat.shiftRight_eq_div_pow]
  omega

end Bits

section Shift

variable {w : Width} {a : Long} (ha : a.toNat < 2 ^ w.bits) (c : Bool)

theorem toNat_shift (op : ShiftOp) : (shift op a 1 c w).1.toNat =
    (shiftBits op (a.setWidth w.bits) 1 c).1.toNat := by
  rw [shift_fst op a c Nat.one_ne_zero, BitVec.toNat_setWidth_of_le w.bits_le]

theorem shift_lt (op : ShiftOp) : (shift op a 1 c w).1.toNat < 2 ^ w.bits := by
  rw [toNat_shift]
  exact BitVec.isLt _

include ha

theorem toNat_setWidth_bits : (a.setWidth w.bits).toNat = a.toNat := by
  rw [BitVec.toNat_setWidth, Nat.mod_eq_of_lt ha]

theorem carried_rcl : Carried w a a c (shift .rcl a 1 c w).1
    (shiftBits .rcl (a.setWidth w.bits) 1 c).2 where
  left := ha
  right := ha
  sum := shift_lt c .rcl
  eq := by
    rw [toNat_shift, ← shiftBits_rcl_one _ c w.bits_pos, toNat_setWidth_bits ha]

theorem carried_shl : Carried w a a false (shift .shl a 1 c w).1
    (shiftBits .shl (a.setWidth w.bits) 1 c).2 where
  left := ha
  right := ha
  sum := shift_lt c .shl
  eq := by
    rw [toNat_shift, ← shiftBits_shl_one _ c w.bits_pos, toNat_setWidth_bits ha]
    rfl

theorem carried_rcr : Carried w (shift .rcr a 1 c w).1 (shift .rcr a 1 c w).1
    (shiftBits .rcr (a.setWidth w.bits) 1 c).2 a c where
  left := shift_lt c .rcr
  right := shift_lt c .rcr
  sum := ha
  eq := by
    rw [toNat_shift, shiftBits_rcr_one _ c w.bits_pos, toNat_setWidth_bits ha]

theorem carried_shr : Carried w (shift .shr a 1 c w).1 (shift .shr a 1 c w).1
    (shiftBits .shr (a.setWidth w.bits) 1 c).2 a false where
  left := shift_lt c .shr
  right := shift_lt c .shr
  sum := ha
  eq := by
    rw [toNat_shift, shiftBits_shr_one, toNat_setWidth_bits ha]
    rfl

end Shift

/-! ## Chains add up -/

section Chains

variable {w : Width} {as bs : List Long}

section Pairs

variable (h : List.Forall₂ (fun a b => a.toNat < 2 ^ w.bits ∧ b.toNat < 2 ^ w.bits) as bs)

include h

theorem chained_add (c : Bool) :
    let r := chain (fun p c => add p.1 p.2 c w) c (as.zip bs)
    Chained w as bs c r.1 r.2 := by
  induction h generalizing c with
  | nil => exact .nil c
  | cons hab _ ih => exact .cons (carried_add hab.1 hab.2 c) (ih _)

theorem chained_sub (c : Bool) :
    let r := chain (fun p c => sub p.1 p.2 c w) c (as.zip bs)
    Chained w r.1 bs c as r.2 := by
  induction h generalizing c with
  | nil => exact .nil c
  | cons hab _ ih => exact .cons (carried_sub hab.1 hab.2 c) (ih _)

end Pairs

variable (ha : ∀ a ∈ as, a.toNat < 2 ^ w.bits)

include ha

theorem chained_rcl (c : Bool) :
    let r := shiftChain w c (as.map fun a => (.rcl, a))
    Chained w as as c r.1 r.2 := by
  induction as generalizing c with
  | nil => exact .nil c
  | cons a as ih =>
    obtain ⟨ha, has⟩ := List.forall_mem_cons.mp ha
    exact .cons (carried_rcl ha c) (ih has _)

theorem chained_rcr (c : Bool) :
    let r := shiftChain w c (as.map fun a => (.rcr, a))
    Chained w r.1.reverse r.1.reverse r.2 as.reverse c := by
  induction as generalizing c with
  | nil => exact .nil c
  | cons a as ih =>
    obtain ⟨ha, has⟩ := List.forall_mem_cons.mp ha
    -- the first limb is the highest, so its result goes on top of the others
    have hlast := (ih has _).concat (carried_rcr ha c)
    rwa [← List.reverse_cons, ← List.reverse_cons] at hlast

variable {c : Bool} (hc : as ≠ [] ∨ c = false)

include hc

theorem chained_double :
    let r := doubleChain w c as
    Chained w as as false r.1 r.2 := by
  cases as with
  | nil =>
    obtain rfl := hc.resolve_left (not_not.mpr rfl)
    exact .nil false
  | cons a as =>
    obtain ⟨ha, has⟩ := List.forall_mem_cons.mp ha
    exact .cons (carried_shl ha c) (chained_rcl has _)

theorem chained_shr :
    let r := shiftChain w c (shifts .shr .rcr as)
    Chained w r.1.reverse r.1.reverse r.2 as.reverse false := by
  cases as with
  | nil =>
    obtain rfl := hc.resolve_left (not_not.mpr rfl)
    exact .nil false
  | cons a as =>
    obtain ⟨ha, has⟩ := List.forall_mem_cons.mp ha
    have hlast := (chained_rcr has _).concat (carried_shr ha c)
    rwa [← List.reverse_cons, ← List.reverse_cons] at hlast

theorem chained_halve :
    let r := halveChain w c as
    Chained w r.1 r.1 r.2 as false := by
  have hc' : as.reverse ≠ [] ∨ c = false := by simpa using hc
  have hchained := chained_shr (by simpa using ha) hc'
  rwa [List.reverse_reverse] at hchained

end Chains

/-! ## Digits -/

section Digits

variable {w : Width} {xs ys zs : List Long} {c out : Bool} (h : Chained w xs ys c zs out)

include h

theorem Chained.digits_sum : zs.map BitVec.toNat ++ [out.toNat] =
    Nat.digitsAppend (2 ^ w.bits) (zs.length + 1) (number w xs + number w ys + c.toNat) := by
  have hlt : ∀ d ∈ zs.map BitVec.toNat ++ [out.toNat], d < 2 ^ w.bits := by
    have hout : out.toNat < 2 ^ w.bits := out.toNat_lt.trans_le (one_lt_base w)
    have hz := h.sum_lt
    simpa [or_imp, forall_and, hout] using hz
  have hvalue : Nat.ofDigits (2 ^ w.bits) (zs.map BitVec.toNat ++ [out.toNat]) =
      number w xs + number w ys + c.toNat := by
    rw [h.number_eq, Nat.ofDigits_append, Nat.ofDigits_singleton, List.length_map, ← pow_mul]
    rfl
  simpa using digits_of_lt hlt hvalue

theorem Chained.digits_left {n : Nat} (hn : number w xs = n) :
    xs.map BitVec.toNat = Nat.digitsAppend (2 ^ w.bits) zs.length n := by
  have hlt : ∀ d ∈ xs.map BitVec.toNat, d < 2 ^ w.bits := by simpa using h.left_lt
  simpa [h.length_eq] using digits_of_lt hlt hn

/-- What is left of a number, less another: a borrow wraps around. -/
theorem Chained.difference (h0 : c = false) :
    number w xs = ((number w zs - number w ys : Int) % 2 ^ (w.bits * zs.length)).toNat ∧
      (out = true ↔ number w zs < number w ys) := by
  have heq := h.number_eq
  have hx := number_lt h.left_lt
  have hz := number_lt h.sum_lt
  rw [h.length_eq] at hx
  have hpow : ((2 ^ (w.bits * zs.length) : Nat) : Int) = 2 ^ (w.bits * zs.length) := by
    push_cast
    rfl
  rw [← hpow]
  generalize 2 ^ (w.bits * zs.length) = size at *
  subst h0
  cases out with
  | false =>
    simp only [Bool.toNat_false, Nat.mul_zero] at heq
    rw [Int.emod_eq_of_lt (by omega) (by omega)]
    simp only [Bool.false_eq_true, false_iff]
    omega
  | true =>
    simp only [Bool.toNat_true, Bool.toNat_false, Nat.mul_one] at heq
    rw [← Int.add_emod_right, Int.emod_eq_of_lt (by omega) (by omega)]
    simp only [true_iff]
    omega

end Digits

/-- What makes up a number when added to itself, with a carry, is half of it. -/
theorem Chained.half {w : Width} {xs zs : List Long} {c : Bool} (h : Chained w xs xs c zs false) :
    number w xs = number w zs / 2 ∧ c = (number w zs).testBit 0 := by
  have heq := h.number_eq
  have hc := c.toNat_le
  rw [Bool.toNat_false, Nat.mul_zero] at heq
  refine ⟨by omega, ?_⟩
  rw [Nat.testBit_zero, Bool.eq_iff_iff, decide_eq_true_eq, ← Bool.toNat_eq_one]
  omega

end Alu

open Alu

/-- **Chains of carries are exact** for numbers of any length. Sums and doubled numbers have the
last carry on top; differences are such modulo a power of the base, and the last carry is a borrow;
halved numbers leave their lowest bit as the last carry. The carry before the first shift counts for
nothing, unless there are no limbs and so no shift. -/
theorem chains_exact (w : Width) (as bs : List Long) (c : Bool) (hlength : as.length = bs.length)
    (ha : ∀ a ∈ as, a.toNat < 2 ^ w.bits) (hb : ∀ b ∈ bs, b.toNat < 2 ^ w.bits)
    (hc : as ≠ [] ∨ c = false) :
    ((addChain w as bs).1.map BitVec.toNat ++ [(addChain w as bs).2.toNat] =
      Nat.digitsAppend (2 ^ w.bits) (as.length + 1) (number w as + number w bs)) ∧
    ((subChain w as bs).1.map BitVec.toNat =
        Nat.digitsAppend (2 ^ w.bits) as.length
          ((number w as - number w bs : Int) % 2 ^ (w.bits * as.length)).toNat ∧
      ((subChain w as bs).2 = true ↔ number w as < number w bs)) ∧
    ((doubleChain w c as).1.map BitVec.toNat ++ [(doubleChain w c as).2.toNat] =
      Nat.digitsAppend (2 ^ w.bits) (as.length + 1) (2 * number w as)) ∧
    (halveChain w c as).1.map BitVec.toNat =
        Nat.digitsAppend (2 ^ w.bits) as.length (number w as / 2) ∧
      (halveChain w c as).2 = (number w as).testBit 0 := by
  have hlimbs : List.Forall₂ (fun a b => a.toNat < 2 ^ w.bits ∧ b.toNat < 2 ^ w.bits) as bs :=
    List.forall₂_iff_zip.mpr ⟨hlength, fun h => ⟨ha _ (List.of_mem_zip h).1,
      hb _ (List.of_mem_zip h).2⟩⟩
  have hadd := chained_add hlimbs false
  have hsub := chained_sub hlimbs false
  have hdouble := chained_double ha hc
  have hhalve := chained_halve ha hc
  refine ⟨?_, ⟨hsub.digits_left (hsub.difference rfl).1, (hsub.difference rfl).2⟩, ?_,
    hhalve.digits_left hhalve.half.1, hhalve.half.2⟩
  · rw [hadd.length_eq]
    exact hadd.digits_sum
  · rw [hdouble.length_eq, Nat.two_mul]
    exact hdouble.digits_sum

/-- Two numbers of two bytes each: the first has more in its lowest byte and in its highest bit. -/
theorem chains_exact_twoBytes :
    ((addChain .byte [0xFF, 0x80] [0x02, 0x7F]).1.map BitVec.toNat ++
        [(addChain .byte [0xFF, 0x80] [0x02, 0x7F]).2.toNat] =
      Nat.digitsAppend 0x100 3 0x10001) ∧
    ¬ (subChain .byte [0xFF, 0x80] [0x02, 0x7F]).2 = true ∧
    (halveChain .byte true [0xFF, 0x80]).1.map BitVec.toNat = Nat.digitsAppend 0x100 2 0x407F ∧
    (halveChain .byte true [0xFF, 0x80]).2 = true := by
  have hfirst : number .byte [0xFF, 0x80] = 0x80FF := by decide
  have hsecond : number .byte [0x02, 0x7F] = 0x7F02 := by decide
  have hbytes : ∀ a ∈ ([0xFF, 0x80] : List Long), a.toNat < 2 ^ Width.byte.bits :=
    List.forall_mem_cons.mpr ⟨by decide, List.forall_mem_singleton.mpr (by decide)⟩
  have hbytes' : ∀ b ∈ ([0x02, 0x7F] : List Long), b.toNat < 2 ^ Width.byte.bits :=
    List.forall_mem_cons.mpr ⟨by decide, List.forall_mem_singleton.mpr (by decide)⟩
  obtain ⟨hadd, ⟨-, hsub⟩, -, hhalf, hlast⟩ := chains_exact .byte [0xFF, 0x80] [0x02, 0x7F] true
    rfl hbytes hbytes' (.inl (List.cons_ne_nil _ _))
  rw [hfirst] at hadd hsub hhalf hlast
  rw [hsecond] at hadd hsub
  exact ⟨hadd, hsub.not.mpr (by decide), hhalf, hlast⟩

end Ia32
