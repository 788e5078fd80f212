import Ia32.Proofs.Instruction

/-!
# Operators that fix a width

* `Mnemonic.mem_all`: every mnemonic is listed;
* `Operator.spelling`: the operator of a mnemonic and a width, where the table has one;
* `Operator.mem_sized_append_unsized`, `Operator.plainOpcode?_of_mem_unsized`: which mnemonics have
  an operator for bytes, and which have no letters for a width;
* **`Operator.find?_spelling`**: the operator stands for the mnemonic and the width;
* `inferWidth_of_width`: the width of an instruction whose registers have it.
-/

set_option autoImplicit false

namespace Ia32

theorem Mnemonic.mem_all (m : Mnemonic) : m ∈ all := by
  cases m with
  | alu op => cases op <;> decide
  | unary op => cases op <;> decide
  | shift op => cases op <;> decide
  | jcc c => simp [all, c.mem_all]
  | plain op => simp [all, op.mem_all]
  | _ => decide

theorem Width.mem_all (w : Width) : w ∈ all := by
  cases w <;> decide

namespace Operator

/-- The operator of a mnemonic and a width: the mnemonic with a letter for the width. The
instructions on whole sets of registers or flags take another letter, and the others without
operands take none, nor do branches. -/
def spelling (m : Mnemonic) (w : Width) : String :=
  match m with
  | .plain .pushf | .plain .popf | .plain .pusha | .plain .popa =>
    if w = .long then m.name.push 'd' else m.name
  | .plain _ | .jmp | .jcc _ | .call => m.name
  | m => m.name.push w.suffix

theorem mem_sized_append_unsized {m : Mnemonic} (hw : m ∉ wide)
    (hp : m.plainOpcode?.isSome = false) : m ∈ sized ++ unsized := by
  have hall : ∀ m ∈ Mnemonic.all, m ∉ wide → m.plainOpcode?.isSome = false →
      m ∈ sized ++ unsized := by
    decide +kernel
  exact hall m m.mem_all hw hp

theorem plainOpcode?_of_mem_unsized {m : Mnemonic} (h : m ∈ unsized) (hm : m.isBranch = false) :
    m.plainOpcode?.isSome = true := by
  have hall : ∀ m ∈ unsized, m.isBranch = false → m.plainOpcode?.isSome = true := by decide
  exact hall m h hm

/-- **The operator of a mnemonic and a width** stands for them, if there is one. Without a letter it
does not fix the width. -/
theorem find?_spelling {m : Mnemonic} {w : Width} (hw : w = .byte → m ∈ sized ++ unsized) :
    find? (spelling m w) = some (m, if m ∈ unsized then none else some w) := by
  have hall : ∀ m ∈ Mnemonic.all, ∀ w ∈ Width.all, (w = .byte → m ∈ sized ++ unsized) →
      find? (spelling m w) = some (m, if m ∈ unsized then none else some w) := by
    decide +kernel
  exact hall m m.mem_all w w.mem_all hw

end Operator

/-! ## Widths -/

/-- **The width of an instruction** is that of its registers, if the operator fixes no other, and if
the operator fixes none it is a long. -/
theorem inferWidth_of_width {operator : String} {m : Mnemonic} {ops : List Operand}
    {implied : Option Width} {w : Width} (hregs : ∀ r, .reg r ∈ sizedOperands m ops → r.width = w)
    (himplied : implied = some w ∨ implied = none ∧ w = .long) :
    inferWidth operator m ops implied = .ok w := by
  cases h : inferWidth operator m ops implied with
  | ok v =>
    obtain ⟨hreg, hfixed, hlong⟩ := inferWidth_ok h
    refine congrArg Except.ok ?_
    rcases himplied with rfl | ⟨rfl, rfl⟩
    · exact (hfixed w rfl).symm
    · by_cases hr : ∃ r, .reg r ∈ sizedOperands m ops
      · obtain ⟨r, hr⟩ := hr
        rw [← hreg r hr, hregs r hr]
      · exact hlong (not_exists.mp hr) rfl
  | error c =>
    rcases (inferWidth_error h).2 with ⟨r, s, hr, hs, hne⟩ | ⟨r, v, hr, hv, hne⟩
    · exact absurd ((hregs r hr).trans (hregs s hs).symm) hne
    · rcases himplied with rfl | ⟨rfl, -⟩
      · exact absurd ((hregs r hr).trans (Option.some.inj hv)) hne
      · cases hv

end Ia32
