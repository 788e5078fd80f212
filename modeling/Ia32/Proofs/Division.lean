import Ia32.Proofs.WideArithmetic

/-!
# Division

* `IsQuotient`, `isQuotient_tdiv`: a quotient rounded toward zero, and its remainder;
* `Action.quotient_ok`, `Action.signedQuotient_ok`: these are given if the quotient fits;
  `Action.quotient_error`, `Action.signedQuotient_error`: nothing is given if not;
* `Machine.Divided`: how a division ends: exactly, or with a fault that changes nothing;
* **`divide_exact`**: so does a division by any operand that can be read, as the quotient fits or
  not; the most negative dividend cannot be divided by -1, and 64 bits are enough.
-/

set_option autoImplicit false

namespace Ia32

open Ia32.Action

/-! ## Quotients -/

/-- **A quotient and its remainder** make up the dividend. The remainder is nearer to zero than the
divisor, and has no sign but that of the dividend. -/
structure IsQuotient (dividend divisor q r : Int) : Prop where
  eq : dividend = q * divisor + r
  lt : |r| < |divisor|
  sign : r = 0 ∨ r.sign = dividend.sign

theorem isQuotient_tdiv (n : Int) {d : Int} (hd : d ≠ 0) :
    IsQuotient n d (n.tdiv d) (n.tmod d) where
  eq := (Int.tdiv_mul_add_tmod n d).symm
  lt := by
    rw [Int.abs_eq_natAbs, Int.abs_eq_natAbs, Int.natAbs_tmod]
    exact_mod_cast Nat.mod_lt _ (Int.natAbs_pos.mpr hd)
  sign := by
    by_cases hdvd : d ∣ n
    · exact .inl (Int.tmod_eq_zero_of_dvd hdvd)
    · exact .inr (by rw [Int.sign_tmod, if_neg hdvd])

namespace Action

variable {w : Width} {n : Nat} {v q r : Long}

theorem quotient_error {f : Fault} (h : quotient n v w = .error f) :
    ¬ n / v.toNat ≤ w.mask.toNat ∧ f = .quotientTooLarge := by
  unfold quotient at h
  dsimp only at h
  split at h
  next hlt =>
    cases h
    exact ⟨Nat.not_le_of_lt hlt, rfl⟩
  · cases h

theorem signedQuotient_error {f : Fault} (h : signedQuotient n v w = .error f) :
    ¬ w.FitsSigned ((BitVec.ofNat (2 * w.bits) n).toInt.tdiv (w.signed v)) ∧
      f = .quotientTooLarge := by
  unfold signedQuotient at h
  dsimp only at h
  split at h
  · cases h
  next hne =>
    cases h
    exact ⟨fun hfits => hne (w.signed_truncate_eq_iff.mpr hfits), rfl⟩

variable (hv : v.toNat < 2 ^ w.bits) (h0 : v ≠ 0)

include hv h0

/-- **A quotient without signs** is given with its remainder. -/
theorem quotient_ok (h : quotient n v w = .ok (q, r)) :
    n / v.toNat ≤ w.mask.toNat ∧
      IsQuotient n v.toNat (q &&& w.mask).toNat (r &&& w.mask).toNat := by
  have hpos : 0 < v.toNat := Nat.pos_of_ne_zero fun h => h0 (BitVec.eq_of_toNat_eq h)
  unfold quotient at h
  dsimp only at h
  split at h
  · cases h
  next hle =>
    obtain ⟨rfl, rfl⟩ := Prod.mk.inj (Except.ok.inj h)
    have hle := Nat.le_of_not_lt hle
    have hq : n / v.toNat < 2 ^ w.bits := by
      have hbits := Nat.two_pow_pos w.bits
      rw [w.toNat_mask] at hle
      omega
    refine ⟨hle, ?_⟩
    rw [w.toNat_ofNat_and_mask, w.toNat_ofNat_and_mask, Nat.mod_eq_of_lt hq,
      Nat.mod_eq_of_lt ((Nat.mod_lt n hpos).trans hv), Int.ofNat_tdiv, Int.ofNat_tmod]
    exact isQuotient_tdiv n (by omega)

/-- **A quotient with signs** is given with its remainder. -/
theorem signedQuotient_ok (h : signedQuotient n v w = .ok (q, r)) :
    w.FitsSigned ((BitVec.ofNat (2 * w.bits) n).toInt.tdiv (w.signed v)) ∧
      IsQuotient (BitVec.ofNat (2 * w.bits) n).toInt (w.signed v) (w.signed (q &&& w.mask))
        (w.signed (r &&& w.mask)) := by
  have hs : w.signed v ≠ 0 := fun h => h0 ((Width.signed_eq_zero_iff hv).mp h)
  unfold signedQuotient at h
  generalize (BitVec.ofNat (2 * w.bits) n).toInt = d at h ⊢
  have hquotient := isQuotient_tdiv d hs
  -- the remainder is nearer to zero than a number of the width
  have hr : w.FitsSigned (d.tmod (w.signed v)) := by
    obtain ⟨hlow, hhigh⟩ := abs_lt.mp (hquotient.lt.trans_le (w.abs_signed_le v))
    exact ⟨hlow.le, hhigh⟩
  dsimp only at h
  split at h
  next hq =>
    obtain ⟨rfl, rfl⟩ := Prod.mk.inj (Except.ok.inj h)
    rw [w.truncate_and_mask, w.truncate_and_mask, hq, w.signed_truncate_eq_iff.mpr hr]
    exact ⟨w.signed_truncate_eq_iff.mp hq, hquotient⟩
  · cases h

end Action

/-! ## Divisions -/

namespace Machine

/-- **How a division ends.** If the quotient fits, it and the remainder are in the two halves, and
nothing else is changed; if not, nothing is. -/
inductive Divided (m : Machine) (w : Width) (fits : Prop) (exact : Long → Long → Prop) :
    EStateM.Result Fault Machine Bool → Prop where
  | done {m' : Machine} (hfits : fits) (hexact : exact (m'.get (halves w).1) (m'.get (halves w).2))
      (hwithin : m.Within ⟨{(halves w).1, (halves w).2}, ∅, ∅, False⟩ m') :
      Divided m w fits exact (.ok true m')
  | failed {f : Fault} (hfits : ¬ fits) (hf : f.kind = "DivideError") :
      Divided m w fits exact (.error f m)

section Divided

variable {m : Machine} {w : Width} {fits : Prop} {exact : Long → Long → Prop}
  {res : EStateM.Result Fault Machine Bool} (h : m.Divided w fits exact res)

include h

theorem Divided.exists_ok (hfits : fits) : ∃ m', res = .ok true m' ∧
    exact (m'.get (halves w).1) (m'.get (halves w).2) ∧
      m.Within ⟨{(halves w).1, (halves w).2}, ∅, ∅, False⟩ m' := by
  cases h with
  | done _ hexact hwithin => exact ⟨_, rfl, hexact, hwithin⟩
  | failed hnot => exact absurd hfits hnot

theorem Divided.exists_error (hfits : ¬ fits) : ∃ f, res = .error f m := by
  cases h with
  | done hyes => exact absurd hyes hfits
  | failed => exact ⟨_, rfl⟩

end Divided

end Machine

namespace Action

variable {m : Machine} {w : Width} {op : Operand} {v : Long} (hv : m.readOperand op w = .ok v)
  {o : UnaryOp} {g : Nat → Long → Width → Except Fault (Long × Long)} (ho : unary o = divide g)

include hv ho

omit ho in
theorem divide_eq (i : Instr) (hd : i.destination? = some op) (hw : i.width = w) :
    divide g i m =
      if v = 0 then .error .divisionByZero m
      else match g (m.pair w) v w with
        | .ok (q, r) => .ok () (m.withHalves w q r)
        | .error e => .error e m := by
  subst hw
  rw [divide, Instr.destination_eq hd, pure_bind, read_bind hv, Machine.pair, ← Nat.shiftLeft_eq]
  split
  · rfl
  · change (match g _ v i.width with
      | .ok (q, r) => setHalves i.width q r
      | .error e => throw e : Action Unit) m = _
    cases g _ v i.width <;> rfl

theorem execute_divided {fits : Prop} {exact : Long → Long → Prop}
    (hok : v ≠ 0 → ∀ q r, g (m.pair w) v w = .ok (q, r) →
      fits ∧ exact (q &&& w.mask) (r &&& w.mask))
    (herror : ∀ e, g (m.pair w) v w = .error e → ¬ fits ∧ e = .quotientTooLarge) :
    m.Divided w (v ≠ 0 ∧ fits) exact (execute ⟨.unary o, w, [op]⟩ m) := by
  rw [execute_unary, ho, divide_eq hv _ rfl rfl]
  by_cases h0 : v = 0
  · rw [if_pos h0]
    exact .failed (fun h => h.1 h0) rfl
  · rw [if_neg h0]
    cases hg : g (m.pair w) v w with
    | error e =>
      obtain ⟨hfits, rfl⟩ := herror e hg
      exact .failed (fun h => hfits h.2) rfl
    | ok p =>
      obtain ⟨hfits, hexact⟩ := hok h0 p.1 p.2 hg
      refine .done ⟨h0, hfits⟩ ?_ (m.within_withHalves _ _ subset_rfl)
      rwa [m.get_low_withHalves, m.get_high_withHalves]

end Action

/-- **Division is exact, or leaves everything alone**, and gives the quotients of 64 bits. -/
theorem divide_exact (m : Machine) (w : Width) (op : Operand) (v : Long)
    (hv : m.readOperand op w = .ok v) :
    m.Divided w (v ≠ 0 ∧ m.pair w / v.toNat ≤ w.mask.toNat)
      (fun q r => IsQuotient (m.pair w) v.toNat q.toNat r.toNat)
      (execute ⟨.unary .div, w, [op]⟩ m) ∧
    m.Divided w (v ≠ 0 ∧ w.FitsSigned ((m.signedPair w).tdiv (w.signed v)))
      (fun q r => IsQuotient (m.signedPair w) (w.signed v) (w.signed q) (w.signed r))
      (execute ⟨.unary .idiv, w, [op]⟩ m) ∧
    (m.signedPair w = -2 ^ (2 * w.bits - 1) → w.signed v = -1 →
      ∃ f, execute ⟨.unary .idiv, w, [op]⟩ m = .error f m) ∧
    (v ≠ 0 →
      let n := Checked.dividend (m.get (halves w).1) (m.get (halves w).2) w
      Checked.quotient n v w = quotient (m.pair w) v w ∧
        Checked.signedQuotient n v w = some (signedQuotient (m.pair w) v w)) := by
  have hlt := m.readOperand_lt hv
  have hidiv : m.Divided w (v ≠ 0 ∧ w.FitsSigned ((m.signedPair w).tdiv (w.signed v)))
      (fun q r => IsQuotient (m.signedPair w) (w.signed v) (w.signed q) (w.signed r))
      (execute ⟨.unary .idiv, w, [op]⟩ m) :=
    execute_divided (g := signedQuotient) hv rfl (fun h0 q r h => signedQuotient_ok hlt h0 h)
      fun f h => signedQuotient_error h
  refine ⟨?_, hidiv, fun hmin hneg => ?_, Checked.quotients_eq m hlt⟩
  · exact execute_divided (g := quotient) hv rfl (fun h0 q r h => quotient_ok hlt h0 h)
      fun f h => quotient_error h
  · -- the quotient would be one more than the largest number of twice the width
    have hlarge : ¬ w.FitsSigned ((m.signedPair w).tdiv (w.signed v)) := by
      rw [hmin, hneg]
      cases w <;> decide
    exact hidiv.exists_error fun hfits => hlarge hfits.2

/-- A machine whose dividend is the least number of a word, with -1 in `cl`. -/
def leastDividend : Machine where
  registers := { general := #v[0x8000, 0xFF, 0, 0, 0, 0, 0, 0] }
  memory := .zeros 0

/-- Without signs the dividend is divided by 255, with signs it cannot be divided by -1. -/
theorem divide_exact_leastDividend :
    (∃ m', execute ⟨.unary .div, .byte, [.reg .cl]⟩ leastDividend = .ok true m' ∧
      IsQuotient 0x8000 0xFF (m'.get .al).toNat (m'.get .ah).toNat) ∧
    ∃ f, execute ⟨.unary .idiv, .byte, [.reg .cl]⟩ leastDividend = .error f leastDividend := by
  have hread : leastDividend.readOperand (.reg .cl) .byte = .ok 0xFF := by decide +kernel
  have hpair : leastDividend.pair .byte = 0x8000 := by decide +kernel
  have hsigned : leastDividend.signedPair .byte = -2 ^ 15 := by decide +kernel
  obtain ⟨hdiv, -, hidiv, -⟩ := divide_exact leastDividend .byte (.reg .cl) 0xFF hread
  rw [hpair] at hdiv
  obtain ⟨m', hm', hexact, -⟩ := hdiv.exists_ok (by decide)
  exact ⟨⟨m', hm', hexact⟩, hidiv hsigned (by decide)⟩

end Ia32
