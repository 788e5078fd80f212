import Ia32.Proofs.Decoded

/-!
# Encodings of the same instruction

* `ModRM.OperandBytes`: the bytes of an operand, said without reading them;
  **`Reading.exists_reads_modRM_iff`**: they are what is read as an operand;
* `Width.extended`: a byte with its sign extended; `Reading.reads_imm_extended`,
  `Reading.reads_distance_extended`: it is read as the byte is;
* `ModRM.Widened`, `Reading.reads_widened`: an offset in a byte, and the same offset in four;
* `Opcode.Synonyms`, **`Opcode.Synonyms.reads`**: an opcode and what follows it, and others that are
  read as the same instruction;
* `Opcode.instrBytes`, `Reading.run_opcode`: instructions by their opcodes;
  `Reading.run_widened`: an offset in a byte or in four changes the length alone;
* `Decoded.SameAs`, `Decoded.Alike`, **`decode_synonyms`**: all of these are decoded as the same
  instruction.
-/

set_option autoImplicit false

namespace Ia32

/-! ## Bytes of operands -/

namespace ModRM

/-- How many bytes the offset of an address takes, given the mode and the field of the base. -/
def offsetLength (mode : BitVec 2) (base : BitVec 3) : Nat :=
  if mode = offsetByte then 1
  else if mode = offsetLong then 4
  else if base = noBase then 4
  else 0

/-- What stands between the operand byte and the offset of an address, given the low field of the
operand byte, and the field of the base. -/
inductive AddressBytes : BitVec 3 → List Byte → BitVec 3 → Prop where
  | plain {low : BitVec 3} (h : low ≠ hasIndex) : AddressBytes low [] low
  | indexed (second : Byte) : AddressBytes hasIndex [second] (Fields.ofByte second).low

/-- **The bytes of an operand** that is a register or a place in memory, with a field beside it. -/
inductive OperandBytes (field : BitVec 3) : List Byte → Prop where
  | reg (r : BitVec 3) : OperandBytes field [(Fields.mk direct field r).byte]
  | mem {mode : BitVec 2} {low base : BitVec 3} {address offset : List Byte}
      (hmode : mode ≠ direct) (haddress : AddressBytes low address base)
      (hoffset : offset.length = offsetLength mode base) :
      OperandBytes field ((Fields.mk mode field low).byte :: (address ++ offset))

end ModRM

theorem Fields.byte_ofByte : ∀ b : Byte, (Fields.ofByte b).byte = b := by
  decide +kernel

namespace Reading

variable {mode : BitVec 2} {low base field : BitVec 3} {bs : List Byte} {w : Width}

theorem exists_reads_value_iff : (∃ v, (value w).Reads bs v) ↔ bs.length = w.bytes := by
  simp only [reads_value, exists_and_left, exists_eq, and_true]

theorem exists_reads_imm (h : bs.length = w.bytes) : ∃ op, (imm w).Reads bs op :=
  exists_reads_map_iff.mpr (exists_reads_value_iff.mpr h)

theorem eq_indirect_of_ne : ∀ {mode : BitVec 2}, mode ≠ ModRM.direct →
    mode ≠ ModRM.offsetByte → mode ≠ ModRM.offsetLong → mode = ModRM.indirect := by
  decide

theorem exists_reads_offset_iff (hmode : mode ≠ ModRM.direct) {ref : MemRef}
    (hbase : ref.base = none ↔ mode = ModRM.indirect ∧ base = ModRM.noBase) :
    (∃ n, (offset mode ref.base.isSome).Reads bs n) ↔
      bs.length = ModRM.offsetLength mode base := by
  unfold offset ModRM.offsetLength
  split
  · exact exists_reads_map_iff.trans exists_reads_value_iff
  split
  · exact exists_reads_map_iff.trans exists_reads_value_iff
  next hbyte hlong =>
    -- the remaining mode is the indirect one, in which a missing base is replaced by an offset
    have hindirect := eq_indirect_of_ne hmode hbyte hlong
    by_cases hnone : base = ModRM.noBase
    · rw [if_pos hnone, hbase.mpr ⟨hindirect, hnone⟩]
      exact exists_reads_map_iff.trans exists_reads_value_iff
    · obtain ⟨r, hr⟩ := Option.ne_none_iff_exists'.mp fun h => hnone (hbase.mp h).2
      rw [if_neg hnone, hr]
      simp [List.length_eq_zero_iff]

theorem reads_address_of_bytes (h : ModRM.AddressBytes low bs base) (mode : BitVec 2) :
    ∃ ref, (address mode low).Reads bs ref ∧
      (ref.base = none ↔ mode = ModRM.indirect ∧ base = ModRM.noBase) := by
  cases h with
  | plain hlow =>
    unfold address
    rw [if_neg hlow]
    split
    next hnone => exact ⟨_, reads_pure.mpr ⟨rfl, rfl⟩, fun _ => hnone, fun _ => rfl⟩
    next hsome => exact ⟨_, reads_pure.mpr ⟨rfl, rfl⟩, nofun, fun h => absurd h hsome⟩
  | indexed second =>
    rw [address_hasIndex]
    exact ⟨_, (reads_byte.mpr rfl).map _, base_indexed⟩

theorem addressBytes_of_reads {ref : MemRef} (h : (address mode low).Reads bs ref) :
    ∃ base, ModRM.AddressBytes low bs base ∧
      (ref.base = none ↔ mode = ModRM.indirect ∧ base = ModRM.noBase) := by
  by_cases hlow : low = ModRM.hasIndex
  · subst hlow
    rw [address_hasIndex] at h
    obtain ⟨second, cs, ds, rfl, hsecond, hrest⟩ := reads_bind.mp h
    obtain rfl := reads_byte.mp hsecond
    obtain ⟨rfl, rfl⟩ := reads_pure.mp hrest
    exact ⟨_, .indexed second, base_indexed⟩
  · unfold address at h
    rw [if_neg hlow] at h
    refine ⟨low, ?_⟩
    split at h
    next hnone =>
      obtain ⟨rfl, rfl⟩ := reads_pure.mp h
      exact ⟨.plain hlow, fun _ => hnone, fun _ => rfl⟩
    next hsome =>
      obtain ⟨rfl, rfl⟩ := reads_pure.mp h
      exact ⟨.plain hlow, nofun, fun h => absurd h hsome⟩

theorem reads_modRM_reg (w : Width) (field r : BitVec 3) :
    (modRM w).Reads [(Fields.mk ModRM.direct field r).byte] (field, .reg ⟨w, r⟩) :=
  reads_modRM (.reg ⟨w, r⟩ field) fun _ h => by cases h; rfl

/-- **The bytes of an operand** are those that an operand is read of. -/
theorem exists_reads_modRM_iff :
    (∃ op, (modRM w).Reads bs (field, op)) ↔ ModRM.OperandBytes field bs := by
  constructor
  · rintro ⟨op, h⟩
    obtain ⟨b, cs, ds, rfl, hb, hrest⟩ := reads_bind.mp h
    obtain rfl := reads_byte.mp hb
    clear h
    obtain ⟨⟨mode, mid, low⟩, rfl⟩ : ∃ f : Fields, f.byte = b :=
      ⟨_, Fields.byte_ofByte b⟩
    rw [Fields.ofByte_byte] at hrest
    dsimp only at hrest
    split at hrest
    next hmode =>
      obtain rfl : mode = ModRM.direct := hmode
      obtain ⟨rfl, hp⟩ := reads_pure.mp hrest
      cases hp
      exact .reg low
    next hmode =>
      obtain ⟨ref, address, es, rfl, haddress, hrest⟩ := reads_bind.mp hrest
      obtain ⟨n, offset, gs, rfl, hoffset, hrest⟩ := reads_bind.mp hrest
      obtain ⟨rfl, hp⟩ := reads_pure.mp hrest
      cases hp
      obtain ⟨base, hbytes, hbase⟩ := addressBytes_of_reads haddress
      rw [List.append_nil, List.singleton_append]
      exact .mem hmode hbytes ((exists_reads_offset_iff hmode hbase).mp ⟨n, hoffset⟩)
  · intro h
    cases h with
    | reg r => exact ⟨_, reads_modRM_reg w field r⟩
    | @mem mode low base address offset hmode haddress hoffset =>
      obtain ⟨ref, href, hbase⟩ := reads_address_of_bytes haddress mode
      obtain ⟨n, hn⟩ := (exists_reads_offset_iff hmode hbase).mpr hoffset
      refine ⟨.mem { ref with offset := n }, (reads_byte.mpr rfl).cons_bind ?_⟩
      rw [Fields.ofByte_byte, if_neg hmode]
      exact href.bind (hn.map _)

end Reading

/-! ## Signs extended -/

namespace Width

/-- A byte as a value of a width, its sign extended, lowest byte first. -/
def extended (w : Width) (b : Byte) : List Byte := littleEndian w.bytes (b.signExtend 32)

@[simp] theorem length_extended (w : Width) (b : Byte) : (w.extended b).length = w.bytes :=
  length_littleEndian _ _

theorem byte_signed_ofLittleEndian (b : Byte) : byte.signed (ofLittleEndian [b]) = b.toInt := by
  have hb : (ofLittleEndian [b]).setWidth 8 = b := by simp [ofLittleEndian]
  exact congrArg BitVec.toInt hb

theorem long_signed_extended (b : Byte) :
    long.signed (ofLittleEndian (long.extended b)) = b.toInt := by
  rw [extended, ofLittleEndian_littleEndian, long_signed,
    show long.mask = BitVec.allOnes 32 from rfl, BitVec.and_allOnes,
    BitVec.toInt_signExtend_of_le (by decide)]

end Width

namespace Reading

/-- **A constant of one byte** is read as it is with its sign extended. -/
theorem reads_imm_extended (w : Width) (b : Byte) :
    ∃ op, (immByte w).Reads [b] op ∧ (imm w).Reads (w.extended b) op := by
  have hbyte : (value .byte).Reads [b] (ofLittleEndian [b]) := reads_value.mpr ⟨rfl, rfl⟩
  have hwide : (value w).Reads (w.extended b) (w.truncate b.toInt) :=
    reads_value.mpr ⟨w.length_extended b, (ofLittleEndian_littleEndian w _).symm⟩
  refine ⟨.imm (w.truncate b.toInt).toNat, ?_, hwide.map _⟩
  rw [← Width.byte_signed_ofLittleEndian]
  exact hbyte.map _

/-- **A distance of one byte** is read as it is with its sign extended. -/
theorem reads_distance_extended (b : Byte) :
    (distance .byte).Reads [b] b.toInt ∧
      (distance .long).Reads (Width.long.extended b) b.toInt := by
  have hbyte : (value .byte).Reads [b] (ofLittleEndian [b]) := reads_value.mpr ⟨rfl, rfl⟩
  have hlong : (value .long).Reads (Width.long.extended b)
      (ofLittleEndian (Width.long.extended b)) :=
    reads_value.mpr ⟨Width.length_extended _ b, rfl⟩
  constructor
  · rw [← Width.byte_signed_ofLittleEndian]
    exact hbyte.map _
  · rw [← Width.long_signed_extended]
    exact hlong.map _

end Reading

/-- The bytes of an operand in memory whose offset is a byte, and those of the same operand with the
offset in four bytes. -/
inductive ModRM.Widened (field : BitVec 3) : List Byte → List Byte → Prop where
  | mk {low base : BitVec 3} {address : List Byte} (h : AddressBytes low address base) (b : Byte) :
      Widened field ((Fields.mk offsetByte field low).byte :: (address ++ [b]))
        ((Fields.mk offsetLong field low).byte :: (address ++ Width.long.extended b))

theorem ModRM.Widened.length_eq {field : BitVec 3} {short long : List Byte}
    (h : Widened field short long) : long.length = short.length + 3 := by
  cases h
  simp [Width.bytes]

namespace Reading

theorem address_offsetByte (low : BitVec 3) :
    address ModRM.offsetByte low = address ModRM.offsetLong low := by
  have hbyte : ModRM.offsetByte ≠ ModRM.indirect := by decide
  have hlong : ModRM.offsetLong ≠ ModRM.indirect := by decide
  simp only [address, hbyte, hlong, false_and, if_false]

/-- **An offset of one byte** is read as it is with its sign extended. -/
theorem reads_widened {field : BitVec 3} {short long : List Byte}
    (h : ModRM.Widened field short long) (w : Width) :
    ∃ op, (modRM w).Reads short (field, op) ∧ (modRM w).Reads long (field, op) := by
  obtain @⟨low, base, address, haddress, b⟩ := h
  obtain ⟨ref, href, -⟩ := reads_address_of_bytes haddress ModRM.offsetByte
  obtain ⟨hbyte, hlong⟩ := reads_distance_extended b
  refine ⟨.mem { ref with offset := b.toInt }, ?_, ?_⟩
  · refine (reads_byte.mpr rfl).cons_bind ?_
    rw [Fields.ofByte_byte, if_neg (by decide : ModRM.offsetByte ≠ ModRM.direct)]
    exact href.bind (hbyte.map _)
  · refine (reads_byte.mpr rfl).cons_bind ?_
    rw [Fields.ofByte_byte, if_neg (by decide : ModRM.offsetLong ≠ ModRM.direct),
      ← address_offsetByte]
    exact href.bind (hlong.map _)

end Reading

/-! ## Opcodes -/

namespace Opcode

/-- **An opcode and what follows it, and others for the same instruction**, where `w` is the width
other than a byte. -/
inductive Synonyms (w : Width) : Opcode → List Byte → Opcode → List Byte → Prop where
  /-- a constant of one byte, its sign extended: `83` and `81`, `6A` and `68` -/
  | aluImm {field : BitVec 3} {bs : List Byte} (h : ModRM.OperandBytes field bs) (b : Byte) :
      Synonyms w aluImmByte (bs ++ [b]) (aluImm true) (bs ++ w.extended b)
  | pushImm (b : Byte) : Synonyms w pushImmByte [b] pushImm (w.extended b)
  /-- a distance of one byte, its sign extended: `EB` and `E9`, `70` and `0F 80` -/
  | jmp (b : Byte) : Synonyms w jmpByte [b] jmp (Width.long.extended b)
  | jcc (c : Cond) (b : Byte) : Synonyms w (jccByte c) [b] (jcc c) (Width.long.extended b)
  /-- a constant to the accumulator: `04` and `80 /0`, `A8` and `F6 /0` -/
  | aluAcc (op : AluOp) (wide : Bool) {bs : List Byte} (h : bs.length = (w.ofWide wide).bytes) :
      Synonyms w (aluAcc op wide) bs (aluImm wide)
        ((Fields.mk ModRM.direct op.code 0).byte :: bs)
  | testAcc (wide : Bool) {bs : List Byte} (h : bs.length = (w.ofWide wide).bytes) :
      Synonyms w (testAcc wide) bs (groupThree wide) ((Fields.mk ModRM.direct 0 0).byte :: bs)
  /-- a register in the opcode: `B0` and `C6 /0`, `40` and `FF /0`, `58` and `8F /0` -/
  | movReg (wide : Bool) (r : BitVec 3) {bs : List Byte} (h : bs.length = (w.ofWide wide).bytes) :
      Synonyms w (movReg wide r) bs (movImm wide) ((Fields.mk ModRM.direct 0 r).byte :: bs)
  | inc (r : BitVec 3) :
      Synonyms w (incReg r) [] (groupFive true) [(Fields.mk ModRM.direct 0 r).byte]
  | dec (r : BitVec 3) :
      Synonyms w (decReg r) [] (groupFive true) [(Fields.mk ModRM.direct 1 r).byte]
  | push (r : BitVec 3) :
      Synonyms w (pushReg r) [] (groupFive true) [(Fields.mk ModRM.direct 6 r).byte]
  | pop (r : BitVec 3) : Synonyms w (popReg r) [] popRM [(Fields.mk ModRM.direct 0 r).byte]
  /-- a count of one: `D0` and `C0` -/
  | shift (wide : Bool) {field : BitVec 3} {bs : List Byte} (h : ModRM.OperandBytes field bs) :
      Synonyms w (shiftOne wide) bs (shiftImm wide) (bs ++ [1])
  /-- two registers, in either direction: `00` and `02`, `88` and `8A` -/
  | alu (op : AluOp) (wide : Bool) (r s : BitVec 3) :
      Synonyms w (aluStore op wide) [(Fields.mk ModRM.direct r s).byte] (aluLoad op wide)
        [(Fields.mk ModRM.direct s r).byte]
  | mov (wide : Bool) (r s : BitVec 3) :
      Synonyms w (movStore wide) [(Fields.mk ModRM.direct r s).byte] (movLoad wide)
        [(Fields.mk ModRM.direct s r).byte]

variable {w : Width} {o o' : Opcode} {bs bs' : List Byte}

/-- **Synonyms are read as the same instruction.** -/
theorem Synonyms.reads (h : Synonyms w o bs o' bs') :
    ∃ i, (o.operands w).Reads bs i ∧ (o'.operands w).Reads bs' i := by
  cases h with
  | aluImm hrm b =>
    obtain ⟨op, hop⟩ := (Reading.exists_reads_modRM_iff (w := w)).mpr hrm
    obtain ⟨n, hbyte, hwide⟩ := Reading.reads_imm_extended w b
    exact ⟨_, hop.bind (hbyte.map _), hop.bind (hwide.map _)⟩
  | pushImm b =>
    obtain ⟨n, hbyte, hwide⟩ := Reading.reads_imm_extended w b
    exact ⟨_, hbyte.map _, hwide.map _⟩
  | jmp b | jcc c b =>
    obtain ⟨hbyte, hlong⟩ := Reading.reads_distance_extended b
    exact ⟨_, hbyte.map _, hlong.map _⟩
  | aluAcc op wide hlen =>
    obtain ⟨n, hn⟩ := Reading.exists_reads_imm hlen
    refine ⟨_, hn.map _, (Reading.reads_modRM_reg _ _ _).cons_bind ?_⟩
    dsimp only
    rw [AluOp.ofCode_code]
    exact hn.map _
  | testAcc wide hlen | movReg wide r hlen =>
    obtain ⟨n, hn⟩ := Reading.exists_reads_imm hlen
    exact ⟨_, hn.map _, (Reading.reads_modRM_reg _ _ _).cons_bind (hn.map _)⟩
  | inc r | dec r | push r | pop r =>
    exact ⟨_, .done _, (Reading.reads_modRM_reg _ _ _).cons_bind (.done _)⟩
  | shift wide hrm =>
    obtain ⟨op, hop⟩ := (Reading.exists_reads_modRM_iff (w := w.ofWide wide)).mpr hrm
    have hvalue : (Reading.value .byte).Reads [1] 1 := Reading.reads_value.mpr ⟨rfl, rfl⟩
    have hone : (Reading.imm .byte).Reads [1] (.imm 1) := hvalue.map _
    exact ⟨_, hop.map _, hop.bind (hone.map _)⟩
  | alu op wide r s | mov wide r s =>
    exact ⟨_, (Reading.reads_modRM_reg _ _ _).map _, (Reading.reads_modRM_reg _ _ _).map _⟩

/-- The opcodes that the bytes of an operand follow. -/
def takesOperand : Opcode → Bool
  | aluStore _ _ | aluLoad _ _ | aluImm _ | aluImmByte | popRM | testStore _ | movStore _
  | movLoad _ | movImm _ | lea | shiftImm _ | shiftOne _ | shiftCl _ | groupThree _
  | groupFive _ => true
  | _ => false

theorem operands_eq_modRM (ho : o.takesOperand = true) (w : Width) :
    ∃ v k, o.operands w = Reading.modRM v >>= k := by
  cases o <;> first | exact ⟨_, _, rfl⟩ | cases ho

end Opcode

/-! ## Instructions by their opcodes -/

/-- The width other than a byte, which a mark sets to a word. -/
def Width.wide (word : Bool) : Width := if word then .word else .long

namespace Opcode

/-- The bytes of an instruction: the mark of a word, the opcode, and what follows it. -/
def instrBytes (o : Opcode) (word : Bool) (bs : List Byte) : List Byte :=
  mark word ++ (o.bytes ++ bs)

theorem instrBytes_append (o : Opcode) (word : Bool) (bs rest : List Byte) :
    o.instrBytes word bs ++ rest = o.instrBytes word (bs ++ rest) := by
  simp only [instrBytes, List.append_assoc]

theorem length_instrBytes (o : Opcode) (word : Bool) (bs : List Byte) :
    (o.instrBytes word bs).length = (mark word ++ o.bytes).length + bs.length := by
  rw [instrBytes, ← List.append_assoc, List.length_append]

end Opcode

namespace Reading

theorem run_instr {word : Bool} {first : Byte} (hne : first ≠ wordMark) (bs : List Byte) :
    instr.run (Opcode.mark word ++ first :: bs) =
      (opcode first >>= Opcode.operands (.wide word)).runFrom ((Opcode.mark word).length + 1)
        bs := by
  cases word with
  | true => rfl
  | false =>
    have hfirst : byte.Reads [first] first := reads_byte.mpr rfl
    refine (hfirst.runFrom_bind _ 0 bs).trans ?_
    rw [if_neg hne]
    rfl

/-- **An instruction is read by its opcode**, on words after a mark. -/
theorem run_opcode (word : Bool) (o : Opcode) (bs : List Byte) :
    instr.run (o.instrBytes word bs) =
      (o.operands (.wide word)).runFrom (Opcode.mark word ++ o.bytes).length bs := by
  obtain ⟨first, cs, ho, hne⟩ : ∃ first cs, o.bytes = first :: cs ∧ first ≠ wordMark := by
    rcases o.bytes_cases with ⟨b, hb, -, hne⟩ | ⟨b, hb⟩
    · exact ⟨_, _, hb, hne⟩
    · exact ⟨_, _, hb, by decide⟩
  rw [Opcode.instrBytes, ho, List.cons_append, run_instr hne, (reads_opcode o ho).runFrom_bind,
    List.length_append, List.length_cons, Nat.add_assoc, Nat.add_comm 1]

theorem run_of_reads {word : Bool} {o : Opcode} {bs : List Byte} {i : Instr}
    (h : (o.operands (.wide word)).Reads bs i) (rest : List Byte) :
    instr.run (o.instrBytes word bs ++ rest) = .done i (o.instrBytes word bs).length := by
  rw [o.instrBytes_append, run_opcode, h.runFrom, o.length_instrBytes]

/-- An offset of one byte makes an instruction that is read as with the offset in four. -/
theorem run_widened {o : Opcode} (ho : o.takesOperand = true) {field : BitVec 3}
    {short long : List Byte} (h : ModRM.Widened field short long) (word : Bool)
    (rest : List Byte) :
    instr.run (o.instrBytes word long ++ rest) =
      (instr.run (o.instrBytes word short ++ rest)).later 3 := by
  obtain ⟨v, k, hk⟩ := Opcode.operands_eq_modRM ho (.wide word)
  obtain ⟨op, hshort, hlong⟩ := reads_widened h v
  rw [o.instrBytes_append, o.instrBytes_append, run_opcode, run_opcode, hk, hlong.runFrom_bind,
    hshort.runFrom_bind, h.length_eq, ← Nat.add_assoc, runFrom_add]

end Reading

/-! ## Decoding -/

/-- The same instruction: the places that branches lead to are compared where the instructions
that follow are at one address. -/
structure Decoded.SameAs (d d' : Decoded) : Prop where
  mnemonic : d'.mnemonic = d.mnemonic
  width : d'.width = d.width
  operands : (d.mnemonic.isBranch = true → d'.next = d.next) → d'.operands = d.operands

/-- What two strings are decoded as: the same instruction, in so many bytes more, or none, or
neither is an instruction. -/
inductive Decoded.Alike (n : Nat) :
    Except Fault (Option Decoded) → Except Fault (Option Decoded) → Prop where
  | found {d d' : Decoded} (h : d.SameAs d') (hlen : d'.length = d.length + n) :
      Alike n (.ok (some d)) (.ok (some d'))
  | truncated : Alike n (.ok none) (.ok none)
  | refused (f f' : Fault) : Alike n (.error f) (.error f')

theorem Operand.relocate_congr {m n : Int} (h : m % 0x100000000 = n % 0x100000000) :
    relocate m = relocate n := by
  funext op
  cases op with
  | imm distance => exact congrArg imm (by rw [Int.add_emod, h, ← Int.add_emod])
  | _ => rfl

theorem Instr.toNat_next_place (i : Instr) (address : Long) (n : Nat) :
    (address.toNat + n : Int) % 0x100000000 = ((i.place address n).next.toNat : Int) := by
  have hnext : (i.place address n).next.toNat = (address.toNat + n) % 0x100000000 := by
    simp [Decoded.next, place]
  rw [hnext]
  exact_mod_cast rfl

theorem Instr.sameAs_place (i : Instr) (address address' : Long) (n n' : Nat) :
    (i.place address n).SameAs (i.place address' n') where
  mnemonic := rfl
  width := rfl
  operands := by
    intro hnext
    by_cases hm : i.mnemonic.isBranch = true
    · have hmod : (address'.toNat + n' : Int) % 0x100000000 =
          (address.toNat + n) % 0x100000000 := by
        rw [i.toNat_next_place, i.toNat_next_place, hnext hm]
      rw [place, place, if_pos hm, if_pos hm, Operand.relocate_congr hmod]
    · rw [place, place, if_neg hm, if_neg hm]

section Decode

variable {bs bs' : List Byte} (address address' : Long)

theorem decode_of_run {i : Instr} {n : Nat} (h : Reading.instr.run bs = .done i n) :
    decode bs address = .ok (some (i.place address n)) :=
  decode_ok_iff.mpr ⟨i, n, h, rfl⟩

/-- Two strings of which the one is read as the other is, and as so many bytes more. -/
theorem alike_of_run {n : Nat} (h : Reading.instr.run bs' = (Reading.instr.run bs).later n) :
    Decoded.Alike n (decode bs address) (decode bs' address') := by
  rw [decode_eq_run, decode_eq_run, h]
  cases Reading.instr.run bs with
  | done i k => exact .found (i.sameAs_place address address' k (k + n)) rfl
  | refused k => exact .refused _ _
  | truncated => exact .truncated

end Decode

/-- **Encodings of the same instruction are decoded alike**, at any addresses and whatever follows
them, on longs and, after a mark, on words. -/
theorem decode_synonyms (word : Bool) (address address' : Long) (rest : List Byte) :
    (∀ o bs o' bs', Opcode.Synonyms (.wide word) o bs o' bs' →
      ∃ d d', d.SameAs d' ∧
        decode (o.instrBytes word bs ++ rest) address = .ok (some d) ∧
        d.length = (o.instrBytes word bs).length ∧
        decode (o'.instrBytes word bs' ++ rest) address' = .ok (some d') ∧
        d'.length = (o'.instrBytes word bs').length) ∧
    ∀ (o : Opcode) field short long, o.takesOperand = true → ModRM.Widened field short long →
      Decoded.Alike 3 (decode (o.instrBytes word short ++ rest) address)
        (decode (o.instrBytes word long ++ rest) address') := by
  constructor
  · intro o bs o' bs' h
    obtain ⟨i, hi, hi'⟩ := h.reads
    exact ⟨_, _, i.sameAs_place address address' _ _,
      decode_of_run address (Reading.run_of_reads hi rest), rfl,
      decode_of_run address' (Reading.run_of_reads hi' rest), rfl⟩
  · intro o field short long ho h
    exact alike_of_run address address' (Reading.run_widened ho h word rest)

/-- A constant and an offset of one byte: `addl $-1, %ebx` and `movl -4(%ebx), %eax`. -/
theorem decode_synonyms_addl_movl :
    (∃ d d', d.SameAs d' ∧ decode [0x83, 0xC3, 0xFF] 0 = .ok (some d) ∧ d.length = 3 ∧
      decode [0x81, 0xC3, 0xFF, 0xFF, 0xFF, 0xFF] 0x100 = .ok (some d') ∧ d'.length = 6) ∧
    Decoded.Alike 3 (decode [0x8B, 0x43, 0xFC] 0)
      (decode [0x8B, 0x83, 0xFC, 0xFF, 0xFF, 0xFF] 0x100) := by
  have haddl : Opcode.Synonyms .long .aluImmByte [0xC3, 0xFF] (.aluImm true)
      [0xC3, 0xFF, 0xFF, 0xFF, 0xFF] :=
    .aluImm (.reg 3 : ModRM.OperandBytes 0 [0xC3]) 0xFF
  have hmovl : ModRM.Widened 0 [0x43, 0xFC] [0x83, 0xFC, 0xFF, 0xFF, 0xFF] :=
    .mk (.plain (by decide : (3 : BitVec 3) ≠ ModRM.hasIndex)) 0xFC
  exact ⟨(decode_synonyms false 0 0x100 []).1 _ _ _ _ haddl,
    (decode_synonyms false 0 0x100 []).2 (.movLoad true) _ _ _ rfl hmovl⟩

end Ia32
