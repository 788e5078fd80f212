import Ia32.Proofs.Words
import Mathlib.Data.List.Induction
import Mathlib.Data.Nat.Digits.Defs

/-!
# The grammar of numbers

* `DigitsOf`, `announcements`, `Magnitude`: digits of a base, behind what announces the base;
* `IsNumber`: the numbers of 64 bits as they should be written, and `IsMissigned`: those with a
  sign where none should be;
* `readDigits_iff`, `readSigned_iff`, `readUnsigned_iff`, `readNumber?_iff`: what is read, part by
  part;
* `IsNumber.not_isMissigned`: no text is written both ways;
* **`readNumber_exact_iff`**: what is read are the numbers of the grammar, but for the least, and
  those with a sign where none should be.
-/

set_option autoImplicit false

namespace Ia32

/-! ## The grammar -/

/-- A row of digits of a base, the highest first, in capital or small letters. -/
def DigitsOf (base : Nat) (cs : List Char) (n : Nat) : Prop :=
  ∃ ks : List Nat, ks ≠ [] ∧ (∀ k ∈ ks, k < base) ∧
    cs.map Char.toLower = ks.map Nat.digitChar ∧ n = Nat.ofDigits base ks.reverse

/-- What announces a base: nothing for the decimal one, and for the others a zero and a letter,
small or capital. -/
def announcements : List (List Char × Nat) :=
  [([], 10), (['0', 'x'], 16), (['0', 'X'], 16), (['0', 'b'], 2), (['0', 'B'], 2),
    (['0', 'o'], 8), (['0', 'O'], 8)]

/-- A base is announced, and digits of it follow. Of a sign in front of the digits there should be
nothing. -/
def Magnitude (sign cs : List Char) (n : Nat) : Prop :=
  ∃ a ∈ announcements, ∃ ds, DigitsOf a.2 ds n ∧ cs = a.1 ++ (sign ++ ds)

/-- **The grammar of numbers.** A number of 64 bits is a minus sign or none, blanks behind that
sign, and digits behind what announces their base. -/
inductive IsNumber : List Char → Int → Prop where
  | plain {cs : List Char} {n : Nat} (h : Magnitude [] cs n) (hn : n < 2 ^ 63) : IsNumber cs n
  | minus {bs cs : List Char} {n : Nat} (hb : ∀ b ∈ bs, Text.isBlank b = true)
      (h : Magnitude [] cs n) (hn : n ≤ 2 ^ 63) : IsNumber ('-' :: (bs ++ cs)) (-n)

/-- Digits with a sign of their own, whose value has 64 bits. -/
inductive SignedMagnitude : List Char → Int → Prop where
  | plus {cs : List Char} {n : Nat} (h : Magnitude ['+'] cs n) (hn : n < 2 ^ 63) :
      SignedMagnitude cs n
  | minus {cs : List Char} {n : Nat} (h : Magnitude ['-'] cs n) (hn : n ≤ 2 ^ 63) :
      SignedMagnitude cs (-n)

/-- A number with a sign where none should be: with a plus sign, with a sign behind what announces
its base, or with a second one. A minus sign takes the opposite in 64 bits. -/
inductive IsMissigned : List Char → Int → Prop where
  | plain {cs : List Char} {k : Int} (h : SignedMagnitude cs k) (hhead : cs.head? ≠ some '-') :
      IsMissigned cs k
  | minus {bs cs : List Char} {k : Int} (hb : ∀ b ∈ bs, Text.isBlank b = true)
      (h : SignedMagnitude cs k) : IsMissigned ('-' :: (bs ++ cs)) (opposite k)

/-! ## Letters -/

theorem of_forall_ofNat {P : Char → Prop} {b : Nat} (h : ∀ n < b, P (Char.ofNat n)) {c : Char}
    (hc : c.toNat < b) : P c := by
  have hp := h c.toNat hc
  rwa [Char.ofNat_toNat] at hp

theorem eq_or_eq_toUpper {c d : Char} (h : c.toLower = d) : c = d ∨ c = d.toUpper := by
  subst h
  by_cases hc : c.toNat < 91
  · exact .inr (of_forall_ofNat (P := fun c => c = c.toLower.toUpper) (by decide +kernel) hc)
  · have hnot : ¬ (c.val ≥ 'A'.val ∧ c.val ≤ 'Z'.val) := fun hup =>
      hc (Nat.lt_succ_of_le (UInt32.le_iff_toNat_le.mp hup.2))
    have hsame : c.toLower = c := dif_neg hnot
    exact .inl hsame.symm

theorem isDigitOf_iff {base : Nat} (hb : base ≤ 16) {c : Char} :
    isDigitOf base c = true ↔ digitValue c < base ∧ c = (digitValue c).digitChar := by
  constructor
  · intro h
    obtain ⟨hc, hlt⟩ := Bool.and_eq_true_iff.mp h
    have hbound : c.toNat < 103 := by
      rcases Bool.or_eq_true_iff.mp hc with hdigit | hletter
      · have hle := (isDigit_iff.mp hdigit).2
        omega
      · have hle := of_decide_eq_true (Bool.and_eq_true_iff.mp hletter).2
        exact Nat.lt_succ_of_le (UInt32.le_iff_toNat_le.mp hle)
    refine ⟨of_decide_eq_true hlt, ?_⟩
    exact of_forall_ofNat (P := fun c => (c.isDigit || ('a' ≤ c && c ≤ 'f')) = true →
      c = (digitValue c).digitChar) (by decide +kernel) hbound hc
  · rintro ⟨hlt, heq⟩
    have hdigit := isDigitOf_digitChar (digitValue c) (by omega)
    rw [← heq, isDigitOf, Bool.and_eq_true] at hdigit
    rw [isDigitOf, Bool.and_eq_true]
    exact ⟨hdigit.1, decide_eq_true hlt⟩

/-! ## Digits -/

theorem digitsValue_map_digitChar (base : Nat) {ks : List Nat} (h : ∀ k ∈ ks, k < 16) :
    digitsValue base (ks.map Nat.digitChar) = Nat.ofDigits base ks.reverse := by
  induction ks using List.reverseRecOn with
  | nil => rfl
  | append_singleton ks k ih =>
    have hks : ∀ k ∈ ks, k < 16 := fun k hk => h k (List.mem_append_left _ hk)
    have hk : k < 16 := h k (by simp)
    rw [List.map_append, List.map_singleton, digitsValue_append, ih hks, digitValue_digitChar k hk,
      List.reverse_append, List.reverse_singleton, List.singleton_append, Nat.ofDigits_cons,
      Nat.mul_comm, Nat.add_comm]

/-- **Digits that are read** are those of the base. -/
theorem readDigits_iff {base : Nat} (hb : base ≤ 16) {cs : List Char} {n : Nat} :
    readDigits base (cs.map Char.toLower) = some n ↔ DigitsOf base cs n := by
  unfold readDigits
  generalize hds : cs.map Char.toLower = ds
  constructor
  · intro h
    split at h
    · next hdigits =>
      obtain ⟨hne, hall⟩ := hdigits
      cases h
      have hdigit : ∀ c ∈ ds, digitValue c < base ∧ c = (digitValue c).digitChar :=
        fun c hc => (isDigitOf_iff hb).mp (List.all_eq_true.mp hall c hc)
      have hlt : ∀ k ∈ ds.map digitValue, k < base := by
        intro k hk
        obtain ⟨c, hc, rfl⟩ := List.mem_map.mp hk
        exact (hdigit c hc).1
      have heq : ds = (ds.map digitValue).map Nat.digitChar := by
        rw [List.map_map]
        exact ((List.map_congr_left fun c hc => (hdigit c hc).2.symm).trans (List.map_id _)).symm
      refine ⟨ds.map digitValue, by simpa using hne, hlt, hds.trans heq, ?_⟩
      rw [← digitsValue_map_digitChar base fun k hk => (hlt k hk).trans_le hb, ← heq]
    · cases h
  · rintro ⟨ks, hne, hlt, heq, rfl⟩
    obtain rfl := hds.symm.trans heq
    have hall : (ks.map Nat.digitChar).all (isDigitOf base) = true := by
      rw [List.all_map, List.all_eq_true]
      intro k hk
      have hvalue := digitValue_digitChar k ((hlt k hk).trans_le hb)
      exact (isDigitOf_iff hb).mpr ⟨hvalue.trans_lt (hlt k hk), by rw [hvalue]⟩
    rw [if_pos ⟨by simpa using hne, hall⟩,
      digitsValue_map_digitChar base fun k hk => (hlt k hk).trans_le hb]

theorem DigitsOf.of_mem {base n : Nat} {cs : List Char} (h : DigitsOf base cs n)
    {c : Char} (hc : c ∈ cs) : ∃ k < base, c = k.digitChar ∨ c = k.digitChar.toUpper := by
  obtain ⟨ks, -, hlt, heq, -⟩ := h
  obtain ⟨k, hk, hkc⟩ := List.mem_map.mp (heq ▸ List.mem_map_of_mem hc)
  exact ⟨k, hlt k hk, eq_or_eq_toUpper hkc.symm⟩

theorem DigitsOf.ne_nil {base n : Nat} {cs : List Char} (h : DigitsOf base cs n) : cs ≠ [] := by
  rintro rfl
  obtain ⟨ks, hne, -, heq, -⟩ := h
  exact hne (List.map_eq_nil_iff.mp heq.symm)

theorem DigitsOf.not_sign_of_mem {base n : Nat} (hb : base ≤ 16) {cs : List Char}
    (h : DigitsOf base cs n) {c : Char} (hc : c ∈ cs) :
    c ≠ '-' ∧ c ≠ '+' ∧ Text.isBlank c = false := by
  have hsmall : ∀ k < 16, k.digitChar ≠ '-' ∧ k.digitChar ≠ '+' ∧
      Text.isBlank k.digitChar = false := by
    decide
  have hcapital : ∀ k < 16, k.digitChar.toUpper ≠ '-' ∧ k.digitChar.toUpper ≠ '+' ∧
      Text.isBlank k.digitChar.toUpper = false := by
    decide
  obtain ⟨k, hk, rfl | rfl⟩ := h.of_mem hc
  · exact hsmall k (hk.trans_le hb)
  · exact hcapital k (hk.trans_le hb)

/-! ## Signs and bases -/

theorem base_le_of_mem {a : List Char × Nat} (h : a ∈ announcements) : a.2 ≤ 16 := by
  revert a
  decide

theorem readSigned_minus (base : Nat) (ds : List Char) : readSigned base ('-' :: ds) =
    ((readDigits base ds).map fun n : Nat => -(n : Int)).filter inRange := by
  rw [readSigned]
  cases readDigits base ds <;> rfl

theorem readSigned_plus (base : Nat) (ds : List Char) : readSigned base ('+' :: ds) =
    ((readDigits base ds).map fun n : Nat => (n : Int)).filter inRange := by
  rw [readSigned]
  cases readDigits base ds <;> rfl

/-- **Digits behind a sign**, or without one. -/
theorem readSigned_iff {base : Nat} (hb : base ≤ 16) {cs : List Char} {v : Int} :
    readSigned base (cs.map Char.toLower) = some v ↔ inRange v = true ∧
      ((∃ n : Nat, DigitsOf base cs n ∧ v = n) ∨
        (∃ ds, ∃ n : Nat, cs = '+' :: ds ∧ DigitsOf base ds n ∧ v = n) ∨
        ∃ ds, ∃ n : Nat, cs = '-' :: ds ∧ DigitsOf base ds n ∧ v = -n) := by
  have hread : ∀ (f : Nat → Int) (ds : List Char),
      ((readDigits base (ds.map Char.toLower)).map f).filter inRange = some v ↔
        inRange v = true ∧ ∃ n, DigitsOf base ds n ∧ v = f n := by
    intro f ds
    rw [Option.filter_eq_some_iff, Option.map_eq_some_iff, and_comm]
    simp only [readDigits_iff hb, eq_comm]
  -- a sign is not a digit, so at most one of the three can be the case
  by_cases hminus : ∃ ds, cs = '-' :: ds
  · obtain ⟨ds, rfl⟩ := hminus
    have hno : ∀ n, ¬ DigitsOf base ('-' :: ds) n :=
      fun n h => (h.not_sign_of_mem hb List.mem_cons_self).1 rfl
    rw [List.map_cons, show '-'.toLower = '-' from rfl, readSigned_minus, hread]
    simp [hno]
  by_cases hplus : ∃ ds, cs = '+' :: ds
  · obtain ⟨ds, rfl⟩ := hplus
    have hno : ∀ n, ¬ DigitsOf base ('+' :: ds) n :=
      fun n h => (h.not_sign_of_mem hb List.mem_cons_self).2.1 rfl
    rw [List.map_cons, show '+'.toLower = '+' from rfl, readSigned_plus, hread]
    simp [hno]
  · have hhead : ∀ c ∈ (cs.map Char.toLower).head?, c ≠ '-' ∧ c ≠ '+' := by
      rcases cs with _ | ⟨c, ds⟩
      · exact nofun
      · rintro _ ⟨⟩
        refine ⟨fun h => hminus ⟨ds, ?_⟩, fun h => hplus ⟨ds, ?_⟩⟩
        · rw [(eq_or_eq_toUpper h).elim id id]
        · rw [(eq_or_eq_toUpper h).elim id id]
    rw [readSigned_of_head base hhead, hread]
    refine and_congr_right fun _ => (or_iff_left ?_).symm
    rintro (⟨ds, n, rfl, -⟩ | ⟨ds, n, rfl, -⟩)
    · exact hplus ⟨ds, rfl⟩
    · exact hminus ⟨ds, rfl⟩

theorem readSigned_announced {c : Char} (hc : isDigitOf 10 c = false) (ds : List Char) :
    readSigned 10 ('0' :: c :: ds) = none := by
  have hhead : ∀ d ∈ ('0' :: c :: ds).head?, d ≠ '-' ∧ d ≠ '+' := by
    rintro _ ⟨⟩
    decide
  have hnone : readDigits 10 ('0' :: c :: ds) = none := by
    rw [readDigits, if_neg]
    rintro ⟨-, hall⟩
    rw [List.all_cons, List.all_cons, hc, Bool.false_and, Bool.and_false] at hall
    cases hall
  rw [readSigned_of_head 10 hhead, hnone]
  rfl

theorem splitBase_of_readSigned {cs : List Char} {v : Int} (h : readSigned 10 cs = some v) :
    splitBase cs = (10, cs) := by
  unfold splitBase
  split
  · cases (readSigned_announced rfl _).symm.trans h
  · cases (readSigned_announced rfl _).symm.trans h
  · cases (readSigned_announced rfl _).symm.trans h
  · rfl

/-- A text whose small letters announce a base announces it with a small letter or a capital. -/
theorem announced_of_map_toLower {c : Char} {base : Nat} {cs ds : List Char}
    (hsmall : (['0', c], base) ∈ announcements)
    (hcapital : (['0', c.toUpper], base) ∈ announcements)
    (h : cs.map Char.toLower = '0' :: c :: ds) :
    ∃ a ∈ announcements, ∃ body, cs = a.1 ++ body ∧ (base, ds) = (a.2, body.map Char.toLower) := by
  obtain ⟨d, cs, rfl, hd, h⟩ := List.map_eq_cons_iff.mp h
  obtain ⟨e, body, rfl, he, rfl⟩ := List.map_eq_cons_iff.mp h
  obtain rfl : d = '0' := (eq_or_eq_toUpper hd).elim id id
  rcases eq_or_eq_toUpper he with rfl | rfl
  · exact ⟨_, hsmall, body, rfl, rfl⟩
  · exact ⟨_, hcapital, body, rfl, rfl⟩

theorem splitBase_map_toLower (cs : List Char) : ∃ a ∈ announcements, ∃ body,
    cs = a.1 ++ body ∧ splitBase (cs.map Char.toLower) = (a.2, body.map Char.toLower) := by
  unfold splitBase
  split
  · next h => exact announced_of_map_toLower (by decide) (by decide) h
  · next h => exact announced_of_map_toLower (by decide) (by decide) h
  · next h => exact announced_of_map_toLower (by decide) (by decide) h
  · exact ⟨([], 10), by decide, cs, rfl, rfl⟩

/-- **The base of a number** is the one announced in front of it. -/
theorem readUnsigned_eq_some_iff {cs : List Char} {v : Int} : readUnsigned cs = some v ↔
    ∃ a ∈ announcements, ∃ body, cs = a.1 ++ body ∧
      readSigned a.2 (body.map Char.toLower) = some v := by
  constructor
  · intro h
    obtain ⟨a, ha, body, hcs, hsplit⟩ := splitBase_map_toLower cs
    rw [readUnsigned, hsplit] at h
    exact ⟨a, ha, body, hcs, h⟩
  · rintro ⟨a, ha, body, rfl, h⟩
    simp only [announcements, List.mem_cons, List.not_mem_nil, or_false] at ha
    rcases ha with rfl | rfl | rfl | rfl | rfl | rfl | rfl
    · rw [List.nil_append, readUnsigned, splitBase_of_readSigned h]
      exact h
    all_goals exact h

theorem inRange_natCast {n : Nat} : inRange (n : Int) = true ↔ n < 2 ^ 63 := by
  rw [inRange_iff]
  omega

theorem inRange_neg_natCast {n : Nat} : inRange (-(n : Int)) = true ↔ n ≤ 2 ^ 63 := by
  rw [inRange_iff]
  omega

/-- **Digits behind what announces their base**, with a sign of their own or without one. -/
theorem readUnsigned_iff {cs : List Char} {v : Int} : readUnsigned cs = some v ↔
    (∃ n : Nat, Magnitude [] cs n ∧ n < 2 ^ 63 ∧ v = n) ∨ SignedMagnitude cs v := by
  rw [readUnsigned_eq_some_iff]
  constructor
  · rintro ⟨a, ha, body, rfl, h⟩
    obtain ⟨hr, ⟨n, hn, rfl⟩ | ⟨ds, n, rfl, hn, rfl⟩ | ⟨ds, n, rfl, hn, rfl⟩⟩ :=
      (readSigned_iff (base_le_of_mem ha)).mp h
    · exact .inl ⟨n, ⟨a, ha, body, hn, rfl⟩, inRange_natCast.mp hr, rfl⟩
    · exact .inr (.plus ⟨a, ha, ds, hn, rfl⟩ (inRange_natCast.mp hr))
    · exact .inr (.minus ⟨a, ha, ds, hn, rfl⟩ (inRange_neg_natCast.mp hr))
  · rintro (⟨n, ⟨a, ha, ds, hd, rfl⟩, hn, rfl⟩ | ⟨⟨a, ha, ds, hd, rfl⟩, hn⟩ |
      ⟨⟨a, ha, ds, hd, rfl⟩, hn⟩)
    · exact ⟨a, ha, ds, rfl, (readSigned_iff (base_le_of_mem ha)).mpr
        ⟨inRange_natCast.mpr hn, .inl ⟨_, hd, rfl⟩⟩⟩
    · exact ⟨a, ha, _, rfl, (readSigned_iff (base_le_of_mem ha)).mpr
        ⟨inRange_natCast.mpr hn, .inr (.inl ⟨ds, _, rfl, hd, rfl⟩)⟩⟩
    · exact ⟨a, ha, _, rfl, (readSigned_iff (base_le_of_mem ha)).mpr
        ⟨inRange_neg_natCast.mpr hn, .inr (.inr ⟨ds, _, rfl, hd, rfl⟩)⟩⟩

/-! ## Where the signs are -/

theorem Magnitude.head {sign cs : List Char} {n : Nat} (h : Magnitude sign cs n) :
    ∃ c, cs.head? = some c ∧ (c ∈ sign ∨ Text.isBlank c = false) := by
  obtain ⟨a, ha, ds, hds, rfl⟩ := h
  obtain ⟨d, ds, rfl⟩ := List.exists_cons_of_ne_nil hds.ne_nil
  have hd := hds.not_sign_of_mem (base_le_of_mem ha) List.mem_cons_self
  have hnone : ∀ a ∈ announcements, a.1 = [] ∨ a.1.head? = some '0' := by decide
  rcases hnone a ha with h0 | h0
  · rw [h0]
    rcases sign with _ | ⟨c, cs⟩
    · exact ⟨d, rfl, .inr hd.2.2⟩
    · exact ⟨c, rfl, .inl List.mem_cons_self⟩
  · exact ⟨'0', by rw [List.head?_append, h0, Option.some_or], .inr rfl⟩

/-- Blanks in front of digits are skipped, with what announces their base and a sign. -/
theorem Magnitude.trimStart_append {sign bs cs : List Char} {n : Nat} (h : Magnitude sign cs n)
    (hsign : ∀ c ∈ sign, Text.isBlank c = false) (hb : ∀ b ∈ bs, Text.isBlank b = true) :
    Text.trimStart (bs ++ cs) = cs := by
  rw [Text.trimStart, List.dropWhile_append_of_pos hb]
  refine Text.trimStart_of_head fun c hc => ?_
  obtain ⟨d, hd, hblank⟩ := h.head
  cases hd.symm.trans hc
  exact hblank.elim (hsign c) id

theorem SignedMagnitude.trimStart_append {bs cs : List Char} {k : Int} (h : SignedMagnitude cs k)
    (hb : ∀ b ∈ bs, Text.isBlank b = true) : Text.trimStart (bs ++ cs) = cs := by
  cases h with
  | plus h _ => exact h.trimStart_append (List.forall_mem_singleton.mpr rfl) hb
  | minus h _ => exact h.trimStart_append (List.forall_mem_singleton.mpr rfl) hb

theorem Magnitude.not_sign_of_mem {cs : List Char} {n : Nat} (h : Magnitude [] cs n) {c : Char}
    (hc : c ∈ cs) : c ≠ '-' ∧ c ≠ '+' := by
  obtain ⟨a, ha, ds, hds, rfl⟩ := h
  rcases List.mem_append.mp hc with hc | hc
  · have hnone : ∀ a ∈ announcements, '-' ∉ a.1 ∧ '+' ∉ a.1 := by decide
    exact ⟨fun h => (hnone a ha).1 (h ▸ hc), fun h => (hnone a ha).2 (h ▸ hc)⟩
  · exact (hds.not_sign_of_mem (base_le_of_mem ha) hc).imp_right And.left

theorem SignedMagnitude.sign_mem {cs : List Char} {k : Int} (h : SignedMagnitude cs k) :
    ∃ c ∈ cs, (c = '-' ∨ c = '+') ∧ Text.isBlank c = false := by
  cases h with
  | plus h _ =>
    obtain ⟨a, -, ds, -, rfl⟩ := h
    exact ⟨'+', by simp, by decide⟩
  | minus h _ =>
    obtain ⟨a, -, ds, -, rfl⟩ := h
    exact ⟨'-', by simp, by decide⟩

/-- **No text is written both ways**, with a sign where none should be and without one. -/
theorem IsNumber.not_isMissigned {cs : List Char} {v w : Int} (h : IsNumber cs v) :
    ¬ IsMissigned cs w := by
  intro hmis
  cases h with
  | plain h _ =>
    cases hmis with
    | plain hsigned _ =>
      obtain ⟨c, hc, hsign, -⟩ := hsigned.sign_mem
      exact hsign.elim (h.not_sign_of_mem hc).1 (h.not_sign_of_mem hc).2
    | minus _ _ => exact (h.not_sign_of_mem List.mem_cons_self).1 rfl
  | @minus bs ds n hb h _ =>
    generalize htail : bs ++ ds = tail at hmis
    cases hmis with
    | plain _ hhead => exact hhead rfl
    | @minus bs' cs' k hb' hsigned =>
      -- behind the first sign there is a second one, which is no blank and no part of the digits
      obtain ⟨c, hc, hsign, hblank⟩ := hsigned.sign_mem
      rcases List.mem_append.mp (htail ▸ List.mem_append_right bs' hc) with hc | hc
      · exact absurd ((hb c hc).symm.trans hblank) (by decide)
      · exact hsign.elim (h.not_sign_of_mem hc).1 (h.not_sign_of_mem hc).2

/-! ## Numbers -/

theorem readNumber?_of_head {cs : List Char} (h : cs.head? ≠ some '-') :
    readNumber? cs = readUnsigned cs := by
  unfold readNumber?
  split
  · exact absurd rfl h
  · rfl

theorem readNumber?_minus (cs : List Char) :
    readNumber? ('-' :: cs) = (readUnsigned (Text.trimStart cs)).map opposite := rfl

/-- **Numbers that are read** are those of the grammar, but for the least, and those with a sign
where none should be. -/
theorem readNumber?_iff {cs : List Char} {v : Int} : readNumber? cs = some v ↔
    (IsNumber cs v ∧ v ≠ -2 ^ 63) ∨ IsMissigned cs v := by
  constructor
  · intro h
    by_cases hhead : cs.head? = some '-'
    · obtain ⟨cs, rfl⟩ := List.head?_eq_some_iff.mp hhead
      rw [readNumber?_minus, Option.map_eq_some_iff] at h
      obtain ⟨k, hk, rfl⟩ := h
      -- the blanks that are skipped are those of the grammar
      have hcs : cs = cs.takeWhile Text.isBlank ++ Text.trimStart cs :=
        List.takeWhile_append_dropWhile.symm
      have hb : ∀ b ∈ cs.takeWhile Text.isBlank, Text.isBlank b = true :=
        List.all_eq_true.mp List.all_takeWhile
      rw [hcs]
      rcases readUnsigned_iff.mp hk with ⟨n, hn, hlt, rfl⟩ | hsigned
      · rw [opposite_of_lt (by omega) (by omega)]
        exact .inl ⟨.minus hb hn (by omega), by omega⟩
      · exact .inr (.minus hb hsigned)
    · rw [readNumber?_of_head hhead] at h
      rcases readUnsigned_iff.mp h with ⟨n, hn, hlt, rfl⟩ | hsigned
      · exact .inl ⟨.plain hn hlt, by omega⟩
      · exact .inr (.plain hsigned hhead)
  · rintro (⟨@⟨_, n, h, hn⟩ | @⟨bs, cs, n, hb, h, hn⟩, hne⟩ | ⟨h, hhead⟩ | ⟨hb, h⟩)
    · have hhead : cs.head? ≠ some '-' := fun hminus =>
        (h.not_sign_of_mem (List.mem_of_head? hminus)).1 rfl
      rw [readNumber?_of_head hhead]
      exact readUnsigned_iff.mpr (.inl ⟨n, h, hn, rfl⟩)
    · rw [readNumber?_minus, h.trimStart_append nofun hb,
        readUnsigned_iff.mpr (.inl ⟨n, h, by omega, rfl⟩), Option.map_some,
        opposite_of_lt (by omega) (by omega)]
    · rw [readNumber?_of_head hhead]
      exact readUnsigned_iff.mpr (.inr h)
    · rw [readNumber?_minus, h.trimStart_append hb, readUnsigned_iff.mpr (.inr h),
        Option.map_some]

/-- A text is read as the grammar says: as a number with the value it has, and else with the
complaint that it is none. -/
def ReadExactly (cs : List Char) : Prop :=
  (∀ v, readNumber cs = .ok v ↔ IsNumber cs v) ∧
    ((∀ v, ¬ IsNumber cs v) → ∃ e, readNumber cs = .error e ∧ e.kind = .malformed)

theorem readNumber_ok_iff {cs : List Char} {v : Int} :
    readNumber cs = .ok v ↔ readNumber? cs = some v := by
  unfold readNumber
  split
  · next h => rw [h, Except.ok.injEq, Option.some.injEq]
  · next h => simp only [h, reduceCtorEq]

theorem readNumber_error_iff {cs : List Char} {e : Cause} :
    readNumber cs = .error e ↔ readNumber? cs = none ∧ e = .noNumber (String.ofList cs) := by
  unfold readNumber
  split
  · next h => simp only [h, reduceCtorEq, false_and]
  · next h => rw [h, Except.error.injEq, eq_self, true_and, eq_comm]

/-- **Numbers are read as the grammar says, but for signs.** Every text of the grammar is read as
the number it is, except for the least one, which is refused; besides them, exactly the texts with
a sign where none should be are read; and all others are refused with a complaint that repeats
them. So a text is read as it should be if and only if it is not the least number and has no
sign where none should be. -/
theorem readNumber_exact_iff (cs : List Char) :
    (∀ v, readNumber cs = .ok v ↔ (IsNumber cs v ∧ v ≠ -2 ^ 63) ∨ IsMissigned cs v) ∧
    (∀ e, readNumber cs = .error e ↔ e = .noNumber (String.ofList cs) ∧
      ∀ v, (IsNumber cs v → v = -2 ^ 63) ∧ ¬ IsMissigned cs v) ∧
    (ReadExactly cs ↔ ¬ IsNumber cs (-2 ^ 63) ∧ ∀ v, ¬ IsMissigned cs v) := by
  have hok : ∀ v, readNumber cs = .ok v ↔ (IsNumber cs v ∧ v ≠ -2 ^ 63) ∨ IsMissigned cs v :=
    fun v => readNumber_ok_iff.trans readNumber?_iff
  have herror : ∀ e, readNumber cs = .error e ↔ e = .noNumber (String.ofList cs) ∧
      ∀ v, (IsNumber cs v → v = -2 ^ 63) ∧ ¬ IsMissigned cs v := by
    intro e
    rw [readNumber_error_iff, and_comm, Option.eq_none_iff_forall_ne_some]
    refine and_congr_right fun _ => forall_congr' fun v => ?_
    rw [Ne, readNumber?_iff, not_or, not_and, not_not]
  refine ⟨hok, herror, ⟨fun ⟨hexact, _⟩ => ⟨fun hleast => ?_, fun v hmis => ?_⟩, ?_⟩⟩
  · rcases (hok _).mp ((hexact _).mpr hleast) with ⟨-, hne⟩ | hmis
    · exact hne rfl
    · exact hleast.not_isMissigned hmis
  · exact ((hexact v).mp ((hok v).mpr (.inr hmis))).not_isMissigned hmis
  · rintro ⟨hleast, hmis⟩
    refine ⟨fun v => (hok v).trans ?_, fun hno => ?_⟩
    · rw [or_iff_left (hmis v), and_iff_left_of_imp]
      rintro h rfl
      exact hleast h
    · exact ⟨_, (herror _).mpr ⟨rfl, fun v => ⟨fun h => absurd h (hno v), hmis v⟩⟩, rfl⟩

example : readNumber "- 0XfF".toList = .ok (-255) := by decide +kernel

/-- Two minus signs cancel out, a sign behind the base counts, and the least number is refused. -/
theorem not_readExactly_signs : ¬ ReadExactly "--5".toList ∧ ¬ ReadExactly "0x-5".toList ∧
    ¬ ReadExactly "-9223372036854775808".toList := by
  have hfive : ∀ base, 5 < base → DigitsOf base ['5'] 5 := fun base h =>
    ⟨[5], by decide, by simpa using h, by decide, by simp⟩
  have hdouble : SignedMagnitude ['-', '5'] (-5) :=
    .minus ⟨([], 10), by decide, ['5'], hfive 10 (by decide), rfl⟩ (by decide)
  have hinner : SignedMagnitude ['0', 'x', '-', '5'] (-5) :=
    .minus ⟨(['0', 'x'], 16), by decide, ['5'], hfive 16 (by decide), rfl⟩ (by decide)
  have hleast : DigitsOf 10 "9223372036854775808".toList (2 ^ 63) :=
    ⟨"9223372036854775808".toList.map digitValue, by decide, by decide, by decide, by decide⟩
  refine ⟨fun h => ?_, fun h => ?_, fun h => ?_⟩
  · have hread : readNumber "--5".toList = .ok 5 := by decide +kernel
    have hmis : IsMissigned "--5".toList _ := @IsMissigned.minus [] _ _ nofun hdouble
    exact ((h.1 5).mp hread).not_isMissigned hmis
  · have hread : readNumber "0x-5".toList = .ok (-5) := by decide +kernel
    exact ((h.1 (-5)).mp hread).not_isMissigned (.plain hinner (by decide))
  · have hread : readNumber "-9223372036854775808".toList ≠ .ok (-2 ^ 63) := by decide +kernel
    have hnumber : IsNumber "-9223372036854775808".toList (-2 ^ 63) :=
      @IsNumber.minus [] _ _ nofun ⟨([], 10), by decide, _, hleast, rfl⟩ le_rfl
    exact hread ((h.1 _).mpr hnumber)

end Ia32
