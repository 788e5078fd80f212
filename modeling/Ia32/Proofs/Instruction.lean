import Ia32.Assembly.Statement
import Ia32.Proofs.Families

/-!
# Instructions that can be written

* `inferWidth_ok`: the width is that of the registers, and the one that the operator fixes;
  `inferWidth_error`: if these differ there is none;
* `RawOperand.isLong_of_resolve`: the registers of an address are long ones;
* `Instruction.WellFormed`: what holds of every instruction of a program;
  **`Instruction.ofRaw_wellFormed`**: instructions are built so.
-/

set_option autoImplicit false

namespace Ia32

/-! ## Widths -/

section Sized

variable {m : Mnemonic} {src dst : Operand}

theorem mem_sizedOperands_one : dst ∈ sizedOperands m [dst] := by
  simp [sizedOperands]

theorem mem_sizedOperands_dst : dst ∈ sizedOperands m [src, dst] := by
  cases hm : m.isShift <;> simp [sizedOperands, hm]

theorem mem_sizedOperands_src (hm : m.isShift = false) : src ∈ sizedOperands m [src, dst] := by
  simp [sizedOperands, hm]

end Sized

theorem mem_filterMap_reg?_iff {ops : List Operand} {r : Reg} :
    r ∈ ops.filterMap Operand.reg? ↔ .reg r ∈ ops := by
  constructor
  · intro hr
    obtain ⟨op, hop, hreg⟩ := List.mem_filterMap.mp hr
    cases op with
    | reg s =>
      cases hreg
      exact hop
    | imm n | mem ref | label name => cases hreg
  · intro hr
    exact List.mem_filterMap.mpr ⟨_, hr, rfl⟩

theorem commonRegister_ok {operator : String} {found res : Option Reg} {rs : List Reg}
    (h : commonRegister operator found rs = .ok res) :
    ∀ s, found = some s ∨ s ∈ rs → ∃ r, res = some r ∧ r.width = s.width := by
  induction rs generalizing found with
  | nil =>
    cases h
    rintro s (hs | hs)
    · exact ⟨s, hs, rfl⟩
    · exact absurd hs List.not_mem_nil
  | cons r rs ih =>
    cases found with
    | none =>
      rintro s (hs | hs)
      · cases hs
      · refine ih h s ?_
        simpa [eq_comm] using hs
    | some prev =>
      by_cases hw : prev.width = r.width
      · rw [commonRegister, if_pos hw] at h
        rintro s (hs | hs)
        · cases hs
          rw [hw]
          exact ih h r (.inl rfl)
        · refine ih h s ?_
          simpa [eq_comm] using hs
      · rw [commonRegister, if_neg hw] at h
        cases h

/-- **The width of an instruction** is that of its registers, and the one that the operator fixes;
without either it is a long. -/
theorem inferWidth_ok {operator : String} {m : Mnemonic} {ops : List Operand}
    {implied : Option Width} {w : Width} (h : inferWidth operator m ops implied = .ok w) :
    (∀ r, .reg r ∈ sizedOperands m ops → r.width = w) ∧ (∀ v, implied = some v → v = w) ∧
      ((∀ r, .reg r ∉ sizedOperands m ops) → implied = none → w = .long) := by
  obtain ⟨found, hfound, h⟩ := bind_ok_iff.mp h
  have hcommon : ∀ r, .reg r ∈ sizedOperands m ops → ∃ s, found = some s ∧ s.width = r.width :=
    fun r hr => commonRegister_ok hfound r (.inr (mem_filterMap_reg?_iff.mpr hr))
  cases found with
  | some s =>
    have hs : s.width = w ∧ ∀ v, implied = some v → v = w := by
      cases implied with
      | none => exact ⟨pure_ok_iff.mp h, nofun⟩
      | some v =>
        by_cases hv : s.width = v
        · obtain rfl : v = w := pure_ok_iff.mp ((if_pos hv).symm.trans h)
          exact ⟨hv, fun _ h => (Option.some.inj h).symm⟩
        · exact absurd ((if_neg hv).symm.trans h) throw_ne_ok
    refine ⟨fun r hr => ?_, hs.2, fun hno _ => ?_⟩
    · obtain ⟨_, ht, hw⟩ := hcommon r hr
      cases ht
      rw [← hw, hs.1]
    · have hnil : (sizedOperands m ops).filterMap Operand.reg? = [] :=
        List.eq_nil_iff_forall_not_mem.mpr fun r hr => hno r (mem_filterMap_reg?_iff.mp hr)
      rw [hnil] at hfound
      cases hfound
  | none =>
    have hno : ∀ r, .reg r ∉ sizedOperands m ops := fun r hr => by
      obtain ⟨_, ht, -⟩ := hcommon r hr
      cases ht
    refine ⟨fun r hr => absurd hr (hno r), ?_, ?_⟩
    · rintro v rfl
      exact pure_ok_iff.mp h
    · rintro - rfl
      exact (pure_ok_iff.mp h).symm

theorem mem_of_commonRegister {operator : String} {found : Option Reg} {rs : List Reg} {r : Reg}
    (h : commonRegister operator found rs = .ok (some r)) : found = some r ∨ r ∈ rs := by
  induction rs generalizing found with
  | nil =>
    cases h
    exact .inl rfl
  | cons s rs ih =>
    have hlater : commonRegister operator (some s) rs = .ok (some r) → r ∈ s :: rs := by
      intro h
      rcases ih h with h | h
      · rw [Option.some.inj h]
        exact List.mem_cons_self
      · exact List.mem_cons_of_mem s h
    cases found with
    | none => exact .inr (hlater h)
    | some prev =>
      rw [commonRegister] at h
      split_ifs at h
      exact .inr (hlater h)

theorem commonRegister_error {operator : String} {found : Option Reg} {rs : List Reg} {c : Cause}
    (h : commonRegister operator found rs = .error c) :
    ∃ r s, c = .registersDiffer operator r s ∧ r.width ≠ s.width ∧ (found = some r ∨ r ∈ rs) ∧
      s ∈ rs := by
  induction rs generalizing found with
  | nil => cases h
  | cons r rs ih =>
    have hlater : commonRegister operator (some r) rs = .error c → ∃ r' s,
        c = .registersDiffer operator r' s ∧ r'.width ≠ s.width ∧
          (found = some r' ∨ r' ∈ r :: rs) ∧ s ∈ r :: rs := by
      intro h
      obtain ⟨r', s, hc, hne, hr', hs⟩ := ih h
      refine ⟨r', s, hc, hne, .inr ?_, List.mem_cons_of_mem r hs⟩
      rcases hr' with hr' | hr'
      · rw [Option.some.inj hr']
        exact List.mem_cons_self
      · exact List.mem_cons_of_mem r hr'
    cases found with
    | none => exact hlater h
    | some prev =>
      rw [commonRegister] at h
      split_ifs at h with hw
      · exact hlater h
      · cases h
        exact ⟨prev, r, rfl, hw, .inl rfl, List.mem_cons_self⟩

/-- **An instruction has no width** if two of its registers have not the same, or if one has not
that which the operator fixes. -/
theorem inferWidth_error {operator : String} {m : Mnemonic} {ops : List Operand}
    {implied : Option Width} {c : Cause} (h : inferWidth operator m ops implied = .error c) :
    c.kind = .invalidOperandSize ∧ ((∃ r s, .reg r ∈ sizedOperands m ops ∧
      .reg s ∈ sizedOperands m ops ∧ r.width ≠ s.width) ∨
        ∃ r w, .reg r ∈ sizedOperands m ops ∧ implied = some w ∧ r.width ≠ w) := by
  have hmem : ∀ r, r ∈ (sizedOperands m ops).filterMap Operand.reg? →
      .reg r ∈ sizedOperands m ops := fun _ => mem_filterMap_reg?_iff.mp
  rcases bind_error_iff.mp h with h | ⟨found, hfound, h⟩
  · obtain ⟨r, s, rfl, hne, hr, hs⟩ := commonRegister_error h
    exact ⟨rfl, .inl ⟨r, s, hmem r (hr.resolve_left nofun), hmem s hs, hne⟩⟩
  · cases found with
    | none => cases implied <;> cases h
    | some r =>
      cases implied with
      | none => cases h
      | some w =>
        dsimp only at h
        split_ifs at h with hw
        · cases h
        · cases h
          have hr := hmem r ((mem_of_commonRegister hfound).resolve_left nofun)
          exact ⟨rfl, .inr ⟨r, w, hr, rfl, hw⟩⟩

/-! ## Addresses -/

theorem findPart_isLong {name : Option String} {r : Option Reg} (h : findPart name = .ok r) :
    ∀ s, r = some s → s.width = .long := by
  cases name with
  | none =>
    cases h
    exact nofun
  | some name =>
    obtain ⟨s, hs, rfl⟩ := map_ok_iff.mp h
    obtain ⟨t, -, ht⟩ := bind_ok_iff.mp hs
    rintro _ ⟨⟩
    by_cases hw : t.width = .long
    · rw [if_pos hw] at ht
      rwa [← pure_ok_iff.mp ht]
    · rw [if_neg hw] at ht
      exact absurd ht throw_ne_ok

theorem RawOperand.isLong_of_resolve {raw : RawOperand} {m : MemRef}
    (h : raw.resolve = .ok (.mem m)) : m.IsLong := by
  cases raw with
  | reg name =>
    obtain ⟨_, -, h⟩ := map_ok_iff.mp h
    cases h
  | imm n | label name => cases h
  | mem base offset index scale =>
    obtain ⟨b, hb, h⟩ := bind_ok_iff.mp h
    obtain ⟨i, hi, h⟩ := bind_ok_iff.mp h
    obtain ⟨-, h⟩ := guard_ok_iff.mp h
    obtain ⟨s, -, h⟩ := bind_ok_iff.mp h
    cases h
    exact ⟨findPart_isLong hb, findPart_isLong hi⟩

/-! ## Operators -/

theorem Operator.implied_of_isBranch {operator : String} {m : Mnemonic} {implied : Option Width}
    (h : find? operator = some (m, implied)) (hm : m.isBranch = true) : implied = none := by
  have hall : ∀ s ∈ spellings, s.2.1.isBranch = true → s.2.2 = none := by decide +kernel
  exact hall _ (mem_of_lookup h) hm

theorem Operator.implied_of_isPlain {operator : String} {m : Mnemonic} {implied : Option Width}
    (h : find? operator = some (m, implied)) (hm : m.plainOpcode?.isSome = true) :
    implied ≠ some .byte := by
  have hall : ∀ s ∈ spellings, s.2.1.plainOpcode?.isSome = true → s.2.2 ≠ some .byte := by
    decide +kernel
  exact hall _ (mem_of_lookup h) hm

/-! ## Instructions -/

namespace Instruction

/-- What holds of every instruction of a program. -/
structure WellFormed (i : Instruction) : Prop where
  selects : ∃ e, Encoding.Selects i.instr.width i.instr.mnemonic i.instr.operands e
  isLong : ∀ m, .mem m ∈ i.instr.operands → m.IsLong
  width : ∀ r, .reg r ∈ sizedOperands i.instr.mnemonic i.instr.operands → r.width = i.instr.width
  branch : i.instr.mnemonic.isBranch = true → i.instr.width = .long
  plain : i.instr.mnemonic.plainOpcode?.isSome = true → i.instr.width ≠ .byte

theorem ofRaw_ok_iff {operator : String} {raw : List RawOperand} {i : Instruction} :
    ofRaw operator raw = .ok i ↔ ∃ m implied ops w, Operator.find? operator = some (m, implied) ∧
      raw.mapM RawOperand.resolve = .ok ops ∧ inferWidth operator m ops implied = .ok w ∧
      (∃ e, Encoding.Selects w m ops e) ∧ ⟨operator, ⟨m, w, ops⟩⟩ = i := by
  unfold ofRaw
  cases hfind : Operator.find? operator with
  | none => simp [throw_ne_ok]
  | some s =>
    simp only [bind_ok_iff, pure_ok_iff, validate_ok_iff]
    constructor
    · rintro ⟨ops, hops, w, hw, -, he, rfl⟩
      exact ⟨_, _, ops, w, rfl, hops, hw, he, rfl⟩
    · rintro ⟨m, implied, ops, w, hs, hops, hw, he, rfl⟩
      cases hs
      exact ⟨ops, hops, w, hw, (), he, rfl⟩

theorem ofRaw_wellFormed {operator : String} {raw : List RawOperand} {i : Instruction}
    (h : ofRaw operator raw = .ok i) : i.WellFormed := by
  obtain ⟨m, implied, ops, w, hfind, hops, hwidth, ⟨e, hselects⟩, rfl⟩ := ofRaw_ok_iff.mp h
  obtain ⟨hreg, himplied, hlong⟩ := inferWidth_ok hwidth
  refine ⟨⟨e, hselects⟩, fun ref href => ?_, hreg, fun hm => ?_, fun hm => ?_⟩
  · obtain ⟨op, -, hop⟩ := exists_of_mapM_ok hops href
    exact RawOperand.isLong_of_resolve hop
  · obtain ⟨name, rfl⟩ := hselects.branch hm
    refine hlong (fun r hr => ?_) (Operator.implied_of_isBranch hfind hm)
    simp [sizedOperands] at hr
  · obtain rfl := hselects.plain_operands hm
    have hne := Operator.implied_of_isPlain hfind hm
    cases implied with
    | none =>
      rw [hlong (fun r hr => by simp [sizedOperands] at hr) rfl]
      exact nofun
    | some v =>
      rw [← himplied v rfl]
      exact fun hv => hne (congrArg some hv)

theorem wellFormed_of_ofBody {body : RawBody} {i : Instruction}
    (h : Statement.ofBody body = .ok (.instruction i)) : i.WellFormed := by
  cases body with
  | instruction operator raw =>
    obtain ⟨_, hraw, hsame⟩ := map_ok_iff.mp h
    cases hsame
    exact ofRaw_wellFormed hraw
  | directive name values =>
    obtain ⟨_, -, hd⟩ := map_ok_iff.mp h
    cases hd

end Instruction

end Ia32
