import Ia32.Proofs.Action

/-!
# Execution of what is decoded

* `Mnemonic.MayFault`: the faults that a decoded instruction can end with;
* `Decoded.WellFormed`: what its operands are like;
* **`execute_decoded`**: the machine can run whatever is decoded.
-/

set_option autoImplicit false

namespace Ia32

/-! ## Faults -/

/-- The faults with which an instruction can end: an access to memory, the stack, and a division
if it is one. -/
inductive Mnemonic.MayFault (m : Mnemonic) : Fault → Prop where
  | access (address : Long) (length : Nat) : MayFault m (.illegalAccess address length)
  | stackOverflow : MayFault m .stackOverflow
  | stackUnderflow : MayFault m .stackUnderflow
  | divisionByZero (h : m = unary .div ∨ m = unary .idiv) : MayFault m .divisionByZero
  | quotientTooLarge (h : m = unary .div ∨ m = unary .idiv) : MayFault m .quotientTooLarge

theorem Mnemonic.MayFault.kind_ne {m : Mnemonic} {f : Fault} (h : m.MayFault f) :
    f.kind ≠ "InstructionNotSupportedError" := by
  cases h <;> simp [Fault.kind]

namespace Action

theorem rules_mayFault (m : Mnemonic) : Rules m.MayFault fun _ _ => True where
  access := .access
  overflow := .stackOverflow
  underflow := .stackUnderflow
  refl _ := trivial
  trans _ _ _ _ _ := trivial
  set _ _ _ := trivial
  flags _ _ := trivial
  store _ _ _ := trivial

theorem perform_mayFault {i : Instr} (ht : i.mnemonic.Takes i.width i.operands) :
    Obeys i.mnemonic.MayFault (fun _ _ => True) (perform i) :=
  perform_obeys (rules_mayFault i.mnemonic) ht
    (fun hdiv => ⟨.divisionByZero hdiv, .quotientTooLarge hdiv⟩) fun _ _ _ => trivial

theorem execute_mayFault {i : Instr} (ht : i.mnemonic.Takes i.width i.operands) :
    Obeys i.mnemonic.MayFault (fun _ _ => True) (execute i) := by
  have hrules := rules_mayFault i.mnemonic
  unfold execute
  split
  · exact obeys_pure hrules false
  · exact (perform_mayFault ht).bind hrules fun _ => obeys_pure hrules true

end Action

/-! ## Operands -/

namespace Decoded

/-- What the operands of a decoded instruction are like: registers have its width, but for the
count of a shift in `cl`; addresses are made of long registers, the index is not `esp`, and there is
no scale without an index; constants are values of the width, and the target of a branch is an
address. -/
structure WellFormed (d : Decoded) : Prop where
  registers : ∀ (k : Nat) (r : Reg), d.operands[k]? = some (.reg r) → r.width = d.width ∨
    r = .cl ∧ k = 0 ∧ d.operands.length = 2 ∧ d.mnemonic.isShift = true
  bases : ∀ m, .mem m ∈ d.operands → ∀ r, m.base = some r → r.width = .long
  indices : ∀ m, .mem m ∈ d.operands → ∀ r, m.index = some r → r.width = .long ∧ r ≠ .esp
  scales : ∀ m, .mem m ∈ d.operands → m.index = none → m.scale = .one
  constants : ∀ n : Int, .imm n ∈ d.operands → 0 ≤ n ∧ n ≤ d.width.mask.toNat
  targets : d.mnemonic.isBranch = true → ∃ n : Int, d.operands = [.imm n] ∧ 0 ≤ n ∧ n < 2 ^ 32
  labels : ∀ name, .label name ∉ d.operands

theorem operand_cases {bs : List Byte} {address : Long} {d : Decoded}
    (h : decode bs address = .ok (some d)) {k : Nat} {op : Operand}
    (hk : d.operands[k]? = some op) :
    op.OfWidth d.width ∨
      op = .reg .cl ∧ k = 0 ∧ d.operands.length = 2 ∧ d.mnemonic.isShift = true := by
  obtain ⟨ht, hbranch⟩ := decode_cases h
  have hmem := List.mem_of_getElem? hk
  generalize d.operands = ops, d.mnemonic = m, d.width = w at *
  cases ht with
  | mov hs hd | alu op hs hd | test hs hd =>
    rcases List.mem_pair.mp hmem with rfl | rfl
    · exact .inl hs
    · exact .inl hd
  | lea hm hr =>
    rcases List.mem_pair.mp hmem with rfl | rfl
    · exact .inl (.mem hm)
    · exact .inl (.reg hr)
  | push ho | pop ho | unary op ho | inc ho | dec ho =>
    rw [List.mem_singleton.mp hmem]
    exact .inl ho
  | shiftBy op h0 h1 hd =>
    rcases List.mem_pair.mp hmem with rfl | rfl
    · exact .inl (.imm h0 h1)
    · exact .inl hd
  | shiftCl op hd =>
    rcases k with _ | _ | k
    · cases hk
      exact .inr ⟨rfl, rfl, rfl, rfl⟩
    · cases hk
      exact .inl hd
    · cases hk
  | branch hm hw n =>
    obtain ⟨n', hops, h0, h1⟩ := hbranch hm
    rw [hops] at hmem
    rw [List.mem_singleton.mp hmem, hw]
    exact .inl (.imm h0 h1)
  | plain op => cases hmem

theorem wellFormed {bs : List Byte} {address : Long} {d : Decoded}
    (h : decode bs address = .ok (some d)) : d.WellFormed := by
  have hop : ∀ op ∈ d.operands, op.OfWidth d.width ∨ op = .reg .cl := by
    intro op hmem
    obtain ⟨k, hk⟩ := List.mem_iff_getElem?.mp hmem
    exact (operand_cases h hk).imp_right And.left
  have hmem : ∀ m, .mem m ∈ d.operands → m.Decodable := by
    intro m hm
    rcases hop _ hm with hw | heq
    · cases hw with
      | mem hm => exact hm
    · cases heq
  refine ⟨fun k r hk => ?_, fun m hm => (hmem m hm).isLong.base, fun m hm r hr => ?_,
    fun m hm => (hmem m hm).scale, fun n hn => ?_, (decode_cases h).2, fun name hname => ?_⟩
  · rcases operand_cases h hk with hw | ⟨heq, hrest⟩
    · cases hw with
      | reg hr => exact .inl hr
    · cases heq
      exact .inr ⟨rfl, hrest⟩
  · refine ⟨(hmem m hm).isLong.index r hr, ?_⟩
    rintro rfl
    exact (hmem m hm).index hr
  · rcases hop _ hn with hw | heq
    · cases hw with
      | imm h0 h1 =>
        exact ⟨h0, d.width.le_mask h1⟩
    · cases heq
  · rcases hop _ hname with hw | heq
    · exact hw.ne_label name rfl
    · cases heq

end Decoded

/-! ## Decoding and executing -/

/-- **The machine can run whatever is decoded.** It ends with no other faults than those of memory
and of the stack, and those of a division if it divides; and the operands are well formed. -/
theorem execute_decoded {bs : List Byte} {address : Long} {d : Decoded}
    (h : decode bs address = .ok (some d)) :
    (∀ m f m', Action.execute d.toInstr m = .error f m' → d.mnemonic.MayFault f) ∧ d.WellFormed :=
  ⟨fun _ _ _ hf => ((Action.execute_mayFault (decode_cases h).1).error hf).1, Decoded.wellFormed h⟩

/-- A division by a place in memory with an index. -/
theorem execute_decoded_idivl :
    ∃ d, decode [0xF7, 0x3C, 0x8B] 0x1000 = .ok (some d) ∧
      (∀ m f m', Action.execute d.toInstr m = .error f m' → d.mnemonic.MayFault f) ∧
      d.WellFormed := by
  have h : decode [0xF7, 0x3C, 0x8B] 0x1000 = .ok (some
      ⟨⟨.unary .idiv, .long, [.mem ⟨some .ebx, 0, some .ecx, .four⟩]⟩, 0x1000, 3⟩) := by
    decide +kernel
  exact ⟨_, h, execute_decoded h⟩

end Ia32
