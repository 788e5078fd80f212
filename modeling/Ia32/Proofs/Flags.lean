import Ia32.Machine.Registers
import Mathlib.Tactic.Common

/-!
# The flags register

* `Flags.getLsbD_bits`: the register, bit by bit;
* `Flags.write`: one flag of the register set or cleared in place; `Flags.bits_set`,
  **`Flags.bits_ofBits`**: to set a flag, and to load all of them, is to write to the register so;
* `Flags.IsRegister`: bit 1 is set, and no bit is set that holds no flag;
* `Flags.isRegister_bits`: so it is always.
-/

set_option autoImplicit false

namespace Ia32

theorem Flag.mem_all (flag : Flag) : flag ∈ Flag.all := by
  cases flag <;> decide

theorem Flag.bit_lt (flag : Flag) : flag.bit < 32 := by
  cases flag <;> decide

theorem Flag.bit_ne_one (flag : Flag) : flag.bit ≠ 1 := by
  cases flag <;> decide

theorem Flag.bit_injective {flag flag' : Flag} (h : flag.bit = flag'.bit) : flag = flag' := by
  cases flag <;> cases flag' <;> first | rfl | cases h

namespace Flags

/-! ## One flag at a time -/

@[simp] theorem get_set (f : Flags) (flag flag' : Flag) (b : Bool) :
    (f.set flag b).get flag' = if flag' = flag then b else f.get flag' := by
  cases flag <;> cases flag' <;> rfl

@[simp] theorem get_ofBits (v : Long) (flag : Flag) : (ofBits v).get flag = v.getLsbD flag.bit := by
  cases flag <;> rfl

/-- The flags register with one flag set or cleared. -/
def write (v : Long) (flag : Flag) (b : Bool) : Long :=
  if b then v ||| BitVec.twoPow 32 flag.bit else v &&& ~~~BitVec.twoPow 32 flag.bit

theorem getLsbD_write (v : Long) (flag : Flag) (b : Bool) (k : Nat) :
    (write v flag b).getLsbD k = if flag.bit = k then b else v.getLsbD k := by
  unfold write
  have hlt := flag.bit_lt
  by_cases hk : flag.bit = k
  · subst hk
    cases b <;> simp [hlt]
  · by_cases hlt' : k < 32
    · cases b <;> simp [hk, Ne.symm hk, hlt']
    · have hout : v.getLsbD k = false := BitVec.getLsbD_of_ge v k (by omega)
      cases b <;> simp [hk, hout]

/-! ## The register -/

theorem getLsbD_foldr (f : Flags) (flags : List Flag) (k : Nat) :
    (flags.foldr (fun flag v => if f.get flag then BitVec.twoPow 32 flag.bit ||| v else v)
      reserved).getLsbD k = true ↔ k = 1 ∨ ∃ flag ∈ flags, flag.bit = k ∧ f.get flag = true := by
  induction flags with
  | nil =>
    change (BitVec.twoPow 32 1).getLsbD k = true ↔ _
    rw [BitVec.getLsbD_twoPow]
    simp only [Bool.and_eq_true, decide_eq_true_eq, List.not_mem_nil, false_and, exists_false,
      or_false]
    omega
  | cons flag flags ih =>
    have hlt := flag.bit_lt
    rw [List.foldr_cons]
    by_cases hget : f.get flag = true
    · rw [if_pos hget, BitVec.getLsbD_or, Bool.or_eq_true, ih, BitVec.getLsbD_twoPow]
      simp [hlt, hget, or_left_comm]
    · rw [if_neg hget, ih]
      simp [hget]

/-- **The register, bit by bit.** -/
theorem getLsbD_bits (f : Flags) (k : Nat) :
    f.bits.getLsbD k = true ↔ k = 1 ∨ ∃ flag, flag.bit = k ∧ f.get flag = true := by
  refine (getLsbD_foldr f Flag.all k).trans ?_
  simp [Flag.mem_all]

theorem getLsbD_bits_bit (f : Flags) (flag : Flag) : f.bits.getLsbD flag.bit = f.get flag := by
  rw [Bool.eq_iff_iff, getLsbD_bits]
  constructor
  · rintro (hone | ⟨flag', hbit, hget⟩)
    · exact absurd hone flag.bit_ne_one
    · rwa [← Flag.bit_injective hbit]
  · exact fun hget => .inr ⟨flag, rfl, hget⟩

/-- **To set a flag** is to write it to the register. -/
theorem bits_set (f : Flags) (flag : Flag) (b : Bool) :
    (f.set flag b).bits = write f.bits flag b := by
  apply BitVec.eq_of_getLsbD_eq
  intro k hk
  rw [getLsbD_write]
  by_cases hbit : flag.bit = k
  · subst hbit
    rw [getLsbD_bits_bit, get_set, if_pos rfl, if_pos rfl]
  · rw [if_neg hbit, Bool.eq_iff_iff, getLsbD_bits, getLsbD_bits]
    refine or_congr_right (exists_congr fun flag' => and_congr_right fun hflag' => ?_)
    have hne : flag' ≠ flag := fun he => hbit (he ▸ hflag')
    rw [get_set, if_neg hne]

theorem ofBits_eq_foldl (f : Flags) (v : Long) :
    ofBits v = Flag.all.foldl (fun f flag => f.set flag (v.getLsbD flag.bit)) f := rfl

/-- **To load all flags** is to write one after the other to the register, whatever was there. -/
theorem bits_ofBits (f : Flags) (v : Long) : (ofBits v).bits =
    Flag.all.foldl (fun r flag => write r flag (v.getLsbD flag.bit)) f.bits := by
  rw [ofBits_eq_foldl f v]
  refine (List.foldl_hom bits fun f flag => ?_).symm
  exact (bits_set f flag _).symm

/-! ## What the register holds -/

/-- Bit 1 is set, and no bit is set that holds no flag. -/
structure IsRegister (v : Long) : Prop where
  reserved : v.getLsbD 1 = true
  flag : ∀ k, v.getLsbD k = true → k = 1 ∨ ∃ flag : Flag, flag.bit = k

theorem isRegister_bits (f : Flags) : IsRegister f.bits := by
  refine ⟨(getLsbD_bits f 1).mpr (.inl rfl), fun k hk => ?_⟩
  rcases (getLsbD_bits f k).mp hk with hone | ⟨flag, hbit, -⟩
  · exact .inl hone
  · exact .inr ⟨flag, hbit⟩

end Flags

end Ia32
