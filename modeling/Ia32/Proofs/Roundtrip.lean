import Ia32.Proofs.Canonical
import Ia32.Proofs.Placement
import Mathlib.Data.Int.ModEq

/-!
# Programs read back

* `Operand.locate`: a label of a program that lies in memory, by the place that it names;
* `Instruction.WellFormed.decode_bytes`: the code of an instruction, decoded;
* **`decode_assembled`**: decoding undoes assembling.
-/

set_option autoImplicit false

namespace Ia32

/-! ## Labels in memory -/

/-- The operand that stands for an operand when the program lies in memory from an address on: a
label is a constant, the place that it names. -/
def Operand.locate (l : Layout) (load : Long) : Operand → Operand
  | label name =>
    match l.resolve name with
    | .ok a => imm (load + a).toNat
    | .error _ => label name
  | op => op

/-- The instruction that stands for an instruction when the program lies in memory. -/
def Instr.locate (l : Layout) (load : Long) (i : Instr) : Instr :=
  { i with operands := i.operands.map (Operand.locate l load) }

theorem Operand.locate_label {l : Layout} {load a : Long} {name : String}
    (h : l.resolve name = .ok a) : (label name).locate l load = imm (load + a).toNat := by
  rw [locate, h]

theorem Operand.locate_eq {l : Layout} {load : Long} {op : Operand}
    (h : ∀ name, op ≠ .label name) : op.locate l load = op := by
  cases op with
  | reg r | imm n | mem m => rfl
  | label name => exact absurd rfl (h name)

theorem Operand.canonical_ne_label {w : Width} {op : Operand} (h : ∀ name, op ≠ .label name) :
    ∀ name, op.canonical w ≠ .label name := by
  cases op with
  | reg r | imm n | mem m => exact nofun
  | label name => exact absurd rfl (h name)

theorem Operand.canonicalList_ne_label {m : Mnemonic} {w : Width} {ops : List Operand}
    (h : ∀ name, .label name ∉ ops) : ∀ name, .label name ∉ canonicalList m w ops := by
  have hne : ∀ op ∈ ops, ∀ name, op ≠ .label name := by
    rintro _ hop name rfl
    exact h name hop
  have hmap : ∀ xs : List Operand, (∀ op ∈ xs, op ∈ ops) →
      ∀ name, .label name ∉ xs.map (canonical w) := by
    intro xs hxs name hmem
    obtain ⟨op, hop, heq⟩ := List.mem_map.mp hmem
    exact canonical_ne_label (hne op (hxs op hop)) name heq
  unfold canonicalList
  split
  · rcases ops with _ | ⟨src, _ | ⟨dst, rest⟩⟩
    · exact h
    · intro name hmem
      rcases List.mem_cons.mp hmem with himm | hmem
      · cases himm
      · exact hmap [src] (fun _ => id) name hmem
    · intro name hmem
      rcases List.mem_cons.mp hmem with hsrc | hmem
      · exact hne src List.mem_cons_self name hsrc.symm
      · exact hmap (dst :: rest) (fun _ => List.mem_cons_of_mem _) name hmem
  · exact hmap ops fun _ => id

theorem Instr.locate_canonical {i : Instr} {l : Layout} {load : Long}
    (h : ∀ name, .label name ∉ i.operands) : i.canonical.locate l load = i.canonical := by
  have hops : i.canonical.operands.map (Operand.locate l load) = i.canonical.operands := by
    refine (List.map_congr_left fun op hop => Operand.locate_eq ?_).trans (List.map_id _)
    rintro name rfl
    exact Operand.canonicalList_ne_label h name hop
  rw [locate, hops]

theorem Instr.locate_branch {i : Instr} {l : Layout} {load a : Long} {name : String}
    (hm : i.mnemonic.isBranch = true) (hw : i.width = .long) (hops : i.operands = [.label name])
    (ha : l.resolve name = .ok a) :
    i.canonical.locate l load = ⟨i.mnemonic, .long, [.imm (load + a).toNat]⟩ := by
  have hlist : Operand.canonicalList i.mnemonic i.width i.operands = [.label name] := by
    rw [Operand.canonicalList.eq_def, Mnemonic.isShift_of_isBranch hm, hops]
    rfl
  rw [Instr.canonical, hlist, hw, Mnemonic.canonical_of_isBranch hm, Instr.locate,
    List.map_singleton, Operand.locate_label ha]

/-! ## Distances -/

/-- A distance between two places of a program leads from the one to the other, wherever the
program lies. -/
theorem relocate_distance (load start a : Long) (n : Nat) :
    Operand.relocate ((load + start).toNat + n)
        (.imm (Width.long.signed (Width.long.truncate (a.toNat - (start.toNat + n : Nat))))) =
      .imm (load + a).toNat := by
  have hdistance : Width.long.signed (Width.long.truncate (a.toNat - (start.toNat + n : Nat))) ≡
      a.toNat - (start.toNat + n : Nat) [ZMOD 0x100000000] := by
    rw [Width.long_truncate, Width.long_signed, BitVec.toInt_ofInt]
    exact Int.bmod_emod
  have hnext : ((load + start).toNat : Int) ≡ load.toNat + start.toNat [ZMOD 0x100000000] := by
    rw [BitVec.toNat_add]
    push_cast
    exact Int.mod_modEq _ _
  -- the place of the code and its length cancel, modulo the number of addresses
  have hsum := (hnext.add_right (n : Int)).add hdistance
  rw [Operand.relocate, hsum.eq, BitVec.toNat_add]
  push_cast
  congr 2
  omega

/-! ## Instructions -/

namespace Instruction.WellFormed

variable {i : Instruction} {layout : Layout} {k : Nat} {code : List Byte}

theorem reads (h : i.WellFormed) (hm : i.instr.mnemonic.isBranch = false)
    (hcode : i.bytes layout k = .ok code) :
    Reading.instr.Reads code i.instr.canonical := by
  obtain ⟨e, he⟩ := h.selects
  rw [he.bytes_eq] at hcode
  obtain ⟨bs, trailer, hbs, ht, rfl⟩ := Encoding.bytes_ok_iff.mp hcode
  refine Reading.reads_instr (he.isWord h.branch) ?_
  exact Encoding.reads_operands he hm h.width h.plain hbs ht

theorem reads_branch (h : i.WellFormed) (hm : i.instr.mnemonic.isBranch = true)
    (hcode : i.bytes layout k = .ok code) :
    ∃ name a, i.instr.operands = [.label name] ∧ layout.resolve name = .ok a ∧
      Reading.instr.Reads code ⟨i.instr.mnemonic, .long, [.imm (Width.long.signed
        (Width.long.truncate (a.toNat - ((layout.addressOf k).toNat + code.length : Nat))))]⟩ := by
  obtain ⟨e, he⟩ := h.selects
  have hword := he.isWord h.branch
  rw [he.bytes_eq] at hcode
  obtain ⟨bs, trailer, hbs, ht, rfl⟩ := Encoding.bytes_ok_iff.mp hcode
  rw [h.branch hm] at he hword
  obtain ⟨name, a, hops, ha, hreads⟩ := Encoding.reads_branch he hm hbs ht
  refine ⟨name, a, hops, ha, ?_⟩
  rw [Encoding.length_bytesWith _ (Encoding.length_trailerBytes ht)]
  exact Reading.reads_instr hword hreads

/-- **The code of an instruction, decoded**, wherever its program lies and whatever follows. -/
theorem decode_bytes (h : i.WellFormed) (hcode : i.bytes layout k = .ok code)
    (load : Long) (rest : List Byte) :
    decode (code ++ rest) (load + layout.addressOf k) =
      .ok (some { i.instr.canonical.locate layout load with
        address := load + layout.addressOf k, length := code.length }) := by
  cases hm : i.instr.mnemonic.isBranch with
  | false =>
    have hplace : ∀ a n, i.instr.canonical.place a n =
        { i.instr.canonical with address := a, length := n } := by
      intro a n
      have hcanonical : i.instr.canonical.mnemonic.isBranch = false := by
        rw [← hm]
        exact i.instr.mnemonic.isBranch_canonical
      rw [Instr.place, if_neg (ne_true_of_eq_false hcanonical)]
    obtain ⟨e, he⟩ := h.selects
    rw [decode_eq_run, (h.reads hm hcode).run rest, Instr.locate_canonical (he.no_label hm)]
    dsimp only
    rw [hplace]
  | true =>
    obtain ⟨name, a, hops, ha, hreads⟩ := h.reads_branch hm hcode
    rw [decode_eq_run, hreads.run rest, Instr.locate_branch hm (h.branch hm) hops ha]
    dsimp only
    rw [Instr.place, if_pos hm, List.map_singleton, relocate_distance]

end Instruction.WellFormed

/-! ## Programs -/

/-- **Decoding undoes assembling.** At the start of each instruction of a program, wherever the
program lies, the instruction is found again, with its length and its width. Its mnemonic and its
operands are canonical, and labels are the places that they name. What follows the bytes of the
instruction does not matter. -/
theorem decode_assembled {text : String} {p : Program} (hp : Program.assemble text = .ok p)
    (hsize : p.code.length < 2 ^ 32) (load : Long) {k : Nat} {e : Entry} {i : Instruction}
    (hk : p.entries[k]? = some e) (hi : e.statement = .instruction i) :
    ∃ start n d, p.layout.starts[k]? = some start ∧ p.layout.lengths[k]? = some n ∧
      decode (p.code.drop start.toNat) (load + start) = .ok (some d) ∧
      d.length = n ∧ d.width = i.instr.width ∧ d.mnemonic = i.instr.mnemonic.canonical ∧
      d.operands = (Operand.canonicalList i.instr.mnemonic i.instr.width i.instr.operands).map
        (Operand.locate p.layout load) ∧
      (∀ name, .label name ∈ i.instr.operands → p.layout.Defines name) ∧
      ∀ rest, decode ((p.code.drop start.toNat).take n ++ rest) (load + start) = .ok (some d) := by
  have h := Program.assemble_assembled hp
  have hwf := h.wellFormed hk hi
  have hcode := h.instruction_bytes hk hi
  have hlt : k < p.layout.lengths.length := by
    rw [h.length_lengths]
    exact (List.getElem?_eq_some_iff.mp hk).1
  have hstart : (p.layout.addressOf k).toNat = p.layout.offset k :=
    p.layout.toNat_addressOf (h.length_code ▸ hsize) k
  obtain ⟨rest, hdrop⟩ := h.drop_code hk
  refine ⟨p.layout.addressOf k, e.code.length,
    { i.instr.canonical.locate p.layout load with
      address := load + p.layout.addressOf k, length := e.code.length },
    p.layout.starts_getElem? hlt, h.lengths_getElem? hk, ?_, rfl, rfl, rfl, rfl, ?_, ?_⟩
  · rw [hstart, hdrop]
    exact hwf.decode_bytes hcode load rest
  · exact (hwf.bytes_iff.mp ⟨_, hcode⟩).2
  · rw [hstart, hdrop, List.take_left]
    exact hwf.decode_bytes hcode load

/-- A program of two instructions, the second of which jumps back to the first. -/
def shiftLoop : Program where
  text := "a: sal %cx\njmp a"
  entries := [
    ⟨.instruction ⟨"sal", ⟨.shift .sal, .word, [.reg ⟨.word, 1⟩]⟩⟩, 1, [0x66, 0xD1, 0xE1]⟩,
    ⟨.instruction ⟨"jmp", ⟨.jmp, .long, [.label "a"]⟩⟩, 2, [0xE9, 0xF8, 0xFF, 0xFF, 0xFF]⟩]
  layout := ⟨[("a", 0)], [3, 5]⟩
  warnings := []

theorem assemble_shiftLoop : Program.assemble shiftLoop.text = .ok shiftLoop := by
  decide +kernel

/-- The jump of the loop, found at its offset in a program that lies at `0x1000`. -/
theorem decode_assembled_shiftLoop :
    ∃ d, decode (shiftLoop.code.drop 3) 0x1003 = .ok (some d) ∧ d.length = 5 ∧
      d.mnemonic = .jmp ∧ d.operands = [.imm 0x1000] := by
  have hsize : shiftLoop.code.length < 2 ^ 32 := by decide
  obtain ⟨start, n, d, hstart, hn, hd, hlength, -, hmnemonic, hoperands, -⟩ :=
    decode_assembled assemble_shiftLoop hsize 0x1000 (k := 1) rfl rfl
  have hstart : (3 : Long) = start := Option.some.inj ((by decide : _ = _).trans hstart)
  have hn : 5 = n := Option.some.inj hn
  rw [← hstart] at hd
  exact ⟨d, hd, hlength.trans hn.symm, hmnemonic, hoperands.trans (by decide)⟩

end Ia32
