import Ia32.Proofs.Length

/-!
# Instructions read back

What is read for an instruction is a canonical form of it, the same for all its encodings.

* `Mnemonic.canonical`, `Instr.canonical`: the canonical form, in which labels stay;
* `Width.current`: the width other than a byte in which an instruction is read;
* **`Encoding.reads_operands`**: what follows the opcode, read back, for each encoding;
* `Encoding.reads_branch`: a branch is read with the distance to its target.
-/

set_option autoImplicit false

namespace Ia32

/-! ## Canonical forms -/

/-- The mnemonic that is read for a mnemonic: `sal` is another name of `shl`. -/
def Mnemonic.canonical : Mnemonic → Mnemonic
  | shift op => shift op.canonical
  | m => m

namespace Mnemonic

variable {m : Mnemonic}

theorem canonical_of_isBranch (hm : m.isBranch = true) : m.canonical = m := by
  cases m with
  | shift op => cases hm
  | _ => rfl

theorem isShift_of_isBranch (hm : m.isBranch = true) : m.isShift = false := by
  cases m with
  | jmp | jcc c | call => rfl
  | _ => cases hm

@[simp] theorem isBranch_canonical (m : Mnemonic) : m.canonical.isBranch = m.isBranch := by
  cases m <;> rfl

theorem canonical_eq_plain {op : PlainOp} : m.canonical = .plain op ↔ m = .plain op := by
  cases m with
  | shift op => exact ⟨nofun, nofun⟩
  | _ => exact Iff.rfl

end Mnemonic

/-- The operands that are read for the operands of an instruction of a width. The count of a shift
stays as it is, and a shift without one shifts once. -/
def Operand.canonicalList (m : Mnemonic) (w : Width) (ops : List Operand) : List Operand :=
  if m.isShift then
    match ops with
    | [dst] => [imm 1, dst.canonical w]
    | src :: dsts => src :: dsts.map (canonical w)
    | [] => []
  else ops.map (canonical w)

/-- The instruction that is read for an instruction. Its labels stay. -/
def Instr.canonical (i : Instr) : Instr :=
  ⟨i.mnemonic.canonical, i.width, Operand.canonicalList i.mnemonic i.width i.operands⟩

/-! ## Widths -/

namespace Width

/-- The width other than a byte in which an instruction of a width is read. -/
def current (w : Width) : Width := if w = byte then long else w

@[simp] theorem ofWide_isWide (w : Width) : w.current.ofWide w.isWide = w := by
  cases w <;> rfl

theorem current_of_ne_byte {w : Width} (hw : w ≠ .byte) : w.current = w := if_neg hw

end Width

/-! ## Parts -/

namespace Reading

variable {i : Instr}

theorem reads_imm (w : Width) (n : Int) :
    (imm w).Reads (w.immediate n) ((Operand.imm n).canonical w) := by
  have h := (reads_immediate w n).map fun v => Operand.imm v.toNat
  rw [Width.toNat_truncate] at h
  exact h

theorem reads_count {n : Int} (hn : Width.byte.fits n = true) :
    (imm .byte).Reads (Width.byte.immediate n) (.imm n) := by
  have h := reads_imm .byte n
  obtain ⟨h0, h1⟩ := (Width.fits_iff .byte n).mp hn
  rwa [Operand.canonical, Int.emod_eq_of_lt h0 h1] at h

theorem reads_distance (n : Int) :
    (distance .long).Reads (Width.long.immediate n) (Width.long.signed (Width.long.truncate n)) :=
  (reads_immediate .long n).map Width.long.signed

theorem reads_instr {e : Encoding} {w : Width} {operand trailer : List Byte}
    (hmark : e.isWord = (w == .word))
    (h : (e.opcode.operands w.current).Reads (operand ++ trailer) i) :
    instr.Reads (e.bytesWith operand trailer) i := by
  unfold Encoding.bytesWith
  rw [hmark, List.append_assoc, List.append_assoc]
  cases w with
  | byte | long => exact reads_instr_long h
  | word => exact reads_instr_word h

end Reading

/-! ## Encodings -/

namespace Encoding

open Reading

variable {w : Width} {m : Mnemonic} {ops : List Operand} {e : Encoding} {layout : Layout}
  {next : Int} {bs trailer : List Byte}

theorem Selects.isWord (h : Selects w m ops e) (hm : m.isBranch = true → w = .long) :
    e.isWord = (w == .word) := by
  cases h with
  | jmp name | jcc c name | call name =>
    rw [hm rfl]
    rfl
  | _ => rfl

/-- **What follows the opcode**, read back, for each encoding but those of branches. -/
theorem reads_operands (h : Selects w m ops e) (hm : m.isBranch = false)
    (hw : ∀ r, .reg r ∈ sizedOperands m ops → r.width = w)
    (hplain : m.plainOpcode?.isSome = true → w ≠ .byte) (hbs : e.operandBytes = .ok bs)
    (ht : trailerBytes layout next e.trailer = .ok trailer) :
    (e.opcode.operands w.current).Reads (bs ++ trailer) (Instr.canonical ⟨m, w, ops⟩) := by
  -- registers have the width of the instruction, wherever they stand, but for the count of a shift
  have hone : ∀ {op r}, ops = [op] → op = .reg r → r.width = w := by
    rintro op r rfl rfl
    exact hw r mem_sizedOperands_one
  have hdst : ∀ {src dst r}, ops = [src, dst] → dst = .reg r → r.width = w := by
    rintro src dst r rfl rfl
    exact hw r mem_sizedOperands_dst
  have hsrc : ∀ {r dst}, m.isShift = false → ops = [.reg r, dst] → r.width = w := by
    rintro r dst hm rfl
    exact hw r (mem_sizedOperands_src hm)
  cases h with
  | movReg n r =>
    obtain rfl := hdst rfl rfl
    obtain rfl := (operandBytes_none rfl).mp hbs
    cases ht
    simp only [ofWidth, Opcode.operands, Width.ofWide_isWide]
    exact (reads_imm r.width n).map _
  | @aluAcc op n r hr | @testAcc n r hr =>
    obtain rfl := hdst rfl rfl
    obtain rfl := (operandBytes_none rfl).mp hbs
    cases ht
    have hacc : (⟨r.width, 0⟩ : Reg) = r := by rw [← beq_iff_eq.mp hr]
    simp only [ofWidth, Opcode.operands, Width.ofWide_isWide, hacc]
    exact (reads_imm r.width n).map _
  | movImm n m =>
    have hop := (operandBytes_some rfl).mp hbs
    cases ht
    simp only [ofWidth, Opcode.operands, Width.ofWide_isWide]
    refine (reads_mem hop _).bind ?_
    exact (reads_imm w n).map _
  | movStore r h | aluStore op r h | testStore r h =>
    have hop := (operandBytes_some rfl).mp hbs
    obtain rfl := hsrc rfl rfl
    cases ht
    simp only [ofWidth, Opcode.operands, Width.ofWide_isWide]
    exact (reads_modRM hop fun _ => hdst rfl).bind (reads_pure.mpr ⟨rfl, rfl⟩)
  | movLoad m r | aluLoad op m r =>
    have hop := (operandBytes_some rfl).mp hbs
    obtain rfl := hdst rfl rfl
    cases ht
    simp only [ofWidth, Opcode.operands, Width.ofWide_isWide]
    exact (reads_mem hop _).bind (reads_pure.mpr ⟨rfl, rfl⟩)
  | aluImm op n h =>
    have hop := (operandBytes_some rfl).mp hbs
    cases ht
    simp only [ofWidth, Opcode.operands, Width.ofWide_isWide]
    refine (reads_modRM hop fun _ => hdst rfl).bind ?_
    rw [AluOp.ofCode_code]
    exact (reads_imm w n).map _
  | testImm n h =>
    have hop := (operandBytes_some rfl).mp hbs
    cases ht
    simp only [ofWidth, Opcode.operands, Width.ofWide_isWide]
    refine (reads_modRM hop fun _ => hdst rfl).bind ?_
    exact (reads_imm w n).map _
  | lea m r hw8 =>
    have hop := (operandBytes_some rfl).mp hbs
    obtain rfl := hdst rfl rfl
    cases ht
    simp only [ofWidth, Opcode.operands, Width.current_of_ne_byte hw8]
    exact (reads_mem hop _).bind (reads_pure.mpr ⟨rfl, rfl⟩)
  | pushReg r hw8 | popReg r hw8 | incReg r hw8 | decReg r hw8 =>
    obtain rfl := hone rfl rfl
    obtain rfl := (operandBytes_none rfl).mp hbs
    cases ht
    simp only [ofWidth, Opcode.operands, Width.current_of_ne_byte hw8]
    exact reads_pure.mpr ⟨rfl, rfl⟩
  | pushImm n hw8 =>
    obtain rfl := (operandBytes_none rfl).mp hbs
    cases ht
    simp only [ofWidth, Opcode.operands, Width.current_of_ne_byte hw8]
    exact (reads_imm w n).map _
  | pushMem m hw8 | popMem m hw8 =>
    have hop := (operandBytes_some rfl).mp hbs
    cases ht
    simp only [ofWidth, Opcode.operands, Width.current_of_ne_byte hw8]
    exact (reads_mem hop _).bind (reads_pure.mpr ⟨rfl, rfl⟩)
  | unary op h =>
    have hop := (operandBytes_some rfl).mp hbs
    cases ht
    simp only [ofWidth, Opcode.operands, Width.ofWide_isWide]
    refine (reads_modRM hop fun _ => hone rfl).bind ?_
    rw [if_neg op.code_ne_zero, op.ofCode?_code]
    exact reads_pure.mpr ⟨rfl, rfl⟩
  | incRM h hw8 | decRM h hw8 =>
    have hop := (operandBytes_some rfl).mp hbs
    cases ht
    simp only [ofWidth, Opcode.operands, Width.ofWide_isWide]
    exact (reads_modRM hop fun _ => hone rfl).bind (reads_pure.mpr ⟨rfl, rfl⟩)
  | shiftAlone op h =>
    have hop := (operandBytes_some rfl).mp hbs
    cases ht
    simp only [ofWidth, Opcode.operands, Width.ofWide_isWide]
    refine (reads_modRM hop fun _ => hone rfl).bind ?_
    rw [ShiftOp.ofCode_code]
    exact reads_pure.mpr ⟨rfl, rfl⟩
  | shiftOne op h | shiftCl op h =>
    have hop := (operandBytes_some rfl).mp hbs
    cases ht
    simp only [ofWidth, Opcode.operands, Width.ofWide_isWide]
    refine (reads_modRM hop fun _ => hdst rfl).bind ?_
    rw [ShiftOp.ofCode_code]
    exact reads_pure.mpr ⟨rfl, rfl⟩
  | shiftImm op h hn hfits =>
    have hop := (operandBytes_some rfl).mp hbs
    cases ht
    simp only [ofWidth, Opcode.operands, Width.ofWide_isWide]
    refine (reads_modRM hop fun _ => hdst rfl).bind ?_
    rw [ShiftOp.ofCode_code]
    exact (reads_count hfits).map _
  | jmp name | jcc c name | call name => cases hm
  | plain op =>
    obtain rfl := (operandBytes_none rfl).mp hbs
    cases ht
    simp only [ofWidth, Opcode.operands, Width.current_of_ne_byte (hplain rfl)]
    exact reads_pure.mpr ⟨rfl, rfl⟩

/-- **A branch** is read with the distance from its end to its target. -/
theorem reads_branch (h : Selects .long m ops e) (hm : m.isBranch = true)
    (hbs : e.operandBytes = .ok bs) (ht : trailerBytes layout next e.trailer = .ok trailer) :
    ∃ name a, ops = [.label name] ∧ layout.resolve name = .ok a ∧
      (e.opcode.operands .long).Reads (bs ++ trailer)
        ⟨m, .long, [.imm (Width.long.signed (Width.long.truncate (a.toNat - next)))]⟩ := by
  cases h with
  | jmp name | jcc c name | call name =>
    obtain rfl := (operandBytes_none rfl).mp hbs
    obtain ⟨a, ha, ht⟩ := bind_ok_iff.mp ht
    cases ht
    exact ⟨name, a, rfl, ha, (reads_distance _).map _⟩
  | _ => cases hm

end Encoding

end Ia32
