import Ia32.Source
import Ia32.Text.Format
import Ia32.Proofs.Text
import Mathlib.Algebra.Group.Int.Defs

/-!
# Numbers read back

* `exists_digitChar`, `readDigits_toDigits`: the digits of a number;
* `inRange_of_readNumber`: numbers that are read fit in 64 bits;
* **`readNumber_signedHex`**: a number that is written with its sign is read as it was, but for the
  least one of 64 bits, whose digits alone are out of range;
* `readNumber_wrappedHex`: so is one that is written as a bit pattern, if it has no sign.
-/

set_option autoImplicit false

namespace Ia32

/-! ## Digits -/

theorem exists_digitChar {n : Nat} {c : Char} (h : c ∈ Nat.toDigits 16 n) :
    ∃ d < 16, c = d.digitChar := by
  induction n using Nat.strongRecOn with
  | ind n ih =>
    rw [Nat.toDigits_eq_if (by decide)] at h
    split at h
    · next hlt => exact ⟨n, hlt, List.mem_singleton.mp h⟩
    · next hle =>
      rcases List.mem_append.mp h with h | h
      · exact ih (n / 16) (by omega) h
      · exact ⟨n % 16, Nat.mod_lt n (by decide), List.mem_singleton.mp h⟩

theorem digitValue_digitChar : ∀ d < 16, digitValue d.digitChar = d := by
  decide

theorem isDigitOf_digitChar : ∀ d < 16, isDigitOf 16 d.digitChar = true := by
  decide

theorem toLower_digitChar : ∀ d < 16, d.digitChar.toLower = d.digitChar := by
  decide

theorem digitChar_ne_sign : ∀ d < 16, d.digitChar ≠ '-' ∧ d.digitChar ≠ '+' := by
  decide

theorem digitsValue_append (base : Nat) (ds : List Char) (c : Char) :
    digitsValue base (ds ++ [c]) = digitsValue base ds * base + digitValue c := by
  rw [digitsValue, List.foldl_append]
  rfl

theorem digitsValue_toDigits (n : Nat) : digitsValue 16 (Nat.toDigits 16 n) = n := by
  induction n using Nat.strongRecOn with
  | ind n ih =>
    rw [Nat.toDigits_eq_if (by decide)]
    split
    · next hlt =>
      rw [digitsValue, List.foldl_cons, List.foldl_nil, digitValue_digitChar n hlt]
      omega
    · next hle =>
      have hvalue := digitValue_digitChar (n % 16) (Nat.mod_lt n (by decide))
      rw [digitsValue_append, ih (n / 16) (by omega), hvalue]
      omega

/-- **The digits of a number** have its value. -/
theorem readDigits_toDigits (n : Nat) : readDigits 16 (Nat.toDigits 16 n) = some n := by
  have hall : (Nat.toDigits 16 n).all (isDigitOf 16) = true := by
    rw [List.all_eq_true]
    intro c hc
    obtain ⟨d, hd, rfl⟩ := exists_digitChar hc
    exact isDigitOf_digitChar d hd
  rw [readDigits, if_pos ⟨Nat.toDigits_ne_nil, hall⟩, digitsValue_toDigits]

/-! ## Integers of 64 bits -/

theorem inRange_iff {n : Int} : inRange n = true ↔ -2 ^ 63 ≤ n ∧ n < 2 ^ 63 := by
  rw [inRange, Bool.and_eq_true, decide_eq_true_iff, decide_eq_true_iff]
  exact Iff.rfl

theorem inRange_opposite (n : Int) : inRange (opposite n) = true := by
  rw [inRange_iff, opposite, Int.bmod_def]
  split <;> omega

theorem opposite_of_lt {n : Int} (h0 : 0 ≤ n) (h1 : n < 2 ^ 63) : opposite n = -n := by
  rw [opposite, Int.bmod_def]
  split <;> omega

theorem inRange_of_readUnsigned {cs : List Char} {n : Int} (h : readUnsigned cs = some n) :
    inRange n = true := by
  unfold readUnsigned readSigned at h
  exact (Option.filter_eq_some_iff.mp h).2

theorem inRange_of_readNumber {cs : List Char} {n : Int} (h : readNumber cs = .ok n) :
    inRange n = true := by
  unfold readNumber at h
  split at h
  · next m hm =>
    cases h
    unfold readNumber? at hm
    split at hm
    · obtain ⟨k, -, rfl⟩ := Option.map_eq_some_iff.mp hm
      exact inRange_opposite k
    · exact inRange_of_readUnsigned hm
  · cases h

/-! ## Hexadecimal numbers -/

theorem readSigned_of_head (base : Nat) {cs : List Char}
    (h : ∀ c ∈ cs.head?, c ≠ '-' ∧ c ≠ '+') :
    readSigned base cs = ((readDigits base cs).map fun n : Nat => (n : Int)).filter inRange := by
  unfold readSigned
  split
  · exact absurd rfl (h '-' rfl).1
  · exact absurd rfl (h '+' rfl).2
  · cases readDigits base cs <;> rfl

theorem readSigned_toDigits {n : Nat} (h : (n : Int) < 2 ^ 63) :
    readSigned 16 (Nat.toDigits 16 n) = some (n : Int) := by
  have hhead : ∀ c ∈ (Nat.toDigits 16 n).head?, c ≠ '-' ∧ c ≠ '+' := by
    intro c hc
    obtain ⟨d, hd, rfl⟩ := exists_digitChar (List.mem_of_head? hc)
    exact digitChar_ne_sign d hd
  have hrange : inRange n = true := inRange_iff.mpr ⟨by omega, h⟩
  rw [readSigned_of_head 16 hhead, readDigits_toDigits]
  exact Option.filter_eq_some_iff.mpr ⟨rfl, hrange⟩

theorem readUnsigned_hex {n : Nat} (h : (n : Int) < 2 ^ 63) :
    readUnsigned ('0' :: 'x' :: Nat.toDigits 16 n) = some (n : Int) := by
  have hlower : (Nat.toDigits 16 n).map Char.toLower = Nat.toDigits 16 n := by
    refine (List.map_congr_left fun c hc => ?_).trans (List.map_id _)
    obtain ⟨d, hd, rfl⟩ := exists_digitChar hc
    exact toLower_digitChar d hd
  have hmap : ('0' :: 'x' :: Nat.toDigits 16 n).map Char.toLower =
      '0' :: 'x' :: Nat.toDigits 16 n := by
    rw [List.map_cons, List.map_cons, hlower]
    rfl
  rw [readUnsigned, hmap]
  exact readSigned_toDigits h

/-- **A number that is written with its sign** is read as it was. -/
theorem readNumber_signedHex {n : Int} (h0 : -2 ^ 63 < n) (h1 : n < 2 ^ 63) :
    readNumber (Text.signedHex n).toList = .ok n := by
  have hread := readUnsigned_hex (n := n.natAbs) (by omega)
  have htext : (Text.signedHex n).toList =
      (if n < 0 then ['-'] else []) ++ '0' :: 'x' :: Nat.toDigits 16 n.natAbs := by
    rw [Text.signedHex, String.toList_append, Text.hex, String.toList_ofList]
    split <;> rfl
  have hnumber : readNumber? (Text.signedHex n).toList = some n := by
    rw [htext]
    split
    · next hneg =>
      have htrim : Text.trimStart ('0' :: 'x' :: Nat.toDigits 16 n.natAbs) =
          '0' :: 'x' :: Nat.toDigits 16 n.natAbs := by
        refine Text.trimStart_of_head ?_
        rintro _ ⟨⟩
        rfl
      rw [List.singleton_append, readNumber?, htrim, hread, Option.map_some,
        opposite_of_lt (by omega) (by omega)]
      congr 1
      omega
    · next hpos =>
      rw [List.nil_append, readNumber?, hread]
      · congr 1
        omega
      · rintro cs ⟨⟩
  rw [readNumber, hnumber]

/-- The digits of the least number are out of range without their sign. -/
example : (readNumber (Text.signedHex (-2 ^ 63)).toList).isOk = false := by decide +kernel

theorem Text.wrappedHex_of_nonneg {n : Int} (h0 : 0 ≤ n) (h1 : n < 2 ^ 63) :
    wrappedHex n = signedHex n := by
  have hn : (BitVec.ofInt 64 n).toNat = n.natAbs := by
    rw [BitVec.toNat_ofInt]
    omega
  rw [wrappedHex, signedHex, hn, if_neg (by omega)]

theorem readNumber_wrappedHex {n : Int} (h0 : 0 ≤ n) (h1 : n < 2 ^ 63) :
    readNumber (Text.wrappedHex n).toList = .ok n := by
  rw [Text.wrappedHex_of_nonneg h0 h1]
  exact readNumber_signedHex (by omega) h1

end Ia32
