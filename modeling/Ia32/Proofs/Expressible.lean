import Ia32.Proofs.Decoded
import Ia32.Proofs.Rebuilt
import Ia32.Proofs.Roundtrip
import Ia32.Proofs.Spelling

/-!
# What is decoded can be written

* `Encoding.exists_selects_mov_imm`, …, `Encoding.exists_selects_shift`: operands that are read in
  one form have an encoding, perhaps in another;
* `Instr.Encodable`, **`Opcode.yields_encodable`**: so has every instruction that is read, unless it
  is a branch; `Reading.reads_instr_cases`: the widths that the first byte announces;
* `Operand.OfWidth.resolve_raw`: the operands are built again; `Mnemonic.Takes.canonicalList_eq`:
  they are canonical already;
* **`Instruction.ofRaw_of_takes`**: an instruction that is read is built of its operator and its
  operands; `selects_of_decode`: an instruction that is decoded has an encoding;
* **`decoded_expressible`**: an instruction that is decoded can be assembled, and what is assembled
  is decoded as the same instruction.
-/

set_option autoImplicit false

namespace Ia32

/-! ## Encodings of what is read -/

namespace Encoding

variable {w : Width} {op : Operand}

theorem exists_selects_mov_imm (n : Int) (h : op.isRM = true) :
    ∃ e, Selects w .mov [.imm n, op] e := by
  rcases Operand.isRM_iff.mp h with ⟨r, rfl⟩ | ⟨m, rfl⟩
  · exact ⟨_, .movReg n r⟩
  · exact ⟨_, .movImm n m⟩

theorem exists_selects_mov_load (h : op.isRM = true) (r : Reg) :
    ∃ e, Selects w .mov [op, .reg r] e := by
  rcases Operand.isRM_iff.mp h with ⟨s, rfl⟩ | ⟨m, rfl⟩
  · exact ⟨_, .movStore s rfl⟩
  · exact ⟨_, .movLoad m r⟩

theorem exists_selects_alu_imm (a : AluOp) (n : Int) (h : op.isRM = true) :
    ∃ e, Selects w (.alu a) [.imm n, op] e := by
  by_cases hacc : op.isAccumulator = true
  · rcases Operand.isRM_iff.mp h with ⟨r, rfl⟩ | ⟨m, rfl⟩
    · exact ⟨_, .aluAcc a n hacc⟩
    · cases hacc
  · exact ⟨_, .aluImm a n h (Bool.eq_false_iff.mpr hacc)⟩

theorem exists_selects_alu_load (a : AluOp) (h : op.isRM = true) (r : Reg) :
    ∃ e, Selects w (.alu a) [op, .reg r] e := by
  rcases Operand.isRM_iff.mp h with ⟨s, rfl⟩ | ⟨m, rfl⟩
  · exact ⟨_, .aluStore a s rfl⟩
  · exact ⟨_, .aluLoad a m r⟩

theorem exists_selects_test_imm (n : Int) (h : op.isRM = true) :
    ∃ e, Selects w .test [.imm n, op] e := by
  by_cases hacc : op.isAccumulator = true
  · rcases Operand.isRM_iff.mp h with ⟨r, rfl⟩ | ⟨m, rfl⟩
    · exact ⟨_, .testAcc n hacc⟩
    · cases hacc
  · exact ⟨_, .testImm n h (Bool.eq_false_iff.mpr hacc)⟩

theorem exists_selects_push (hw : w ≠ .byte) (h : op.isRM = true) :
    ∃ e, Selects w .push [op] e := by
  rcases Operand.isRM_iff.mp h with ⟨r, rfl⟩ | ⟨m, rfl⟩
  · exact ⟨_, .pushReg r hw⟩
  · exact ⟨_, .pushMem m hw⟩

theorem exists_selects_pop (hw : w ≠ .byte) (h : op.isRM = true) :
    ∃ e, Selects w .pop [op] e := by
  rcases Operand.isRM_iff.mp h with ⟨r, rfl⟩ | ⟨m, rfl⟩
  · exact ⟨_, .popReg r hw⟩
  · exact ⟨_, .popMem m hw⟩

theorem exists_selects_step (h : op.isRM = true) :
    (∃ e, Selects w .inc [op] e) ∧ ∃ e, Selects w .dec [op] e := by
  rcases Operand.isRM_iff.mp h with ⟨r, rfl⟩ | ⟨m, rfl⟩
  · by_cases hw : w = .byte
    · exact ⟨⟨_, .incRM rfl (.inl hw)⟩, _, .decRM rfl (.inl hw)⟩
    · exact ⟨⟨_, .incReg r hw⟩, _, .decReg r hw⟩
  · exact ⟨⟨_, .incRM rfl (.inr rfl)⟩, _, .decRM rfl (.inr rfl)⟩

theorem exists_selects_shift (s : ShiftOp) {n : Int} (h0 : 0 ≤ n) (h1 : n < 2 ^ Width.byte.bits)
    (h : op.isRM = true) : ∃ e, Selects w (.shift s) [.imm n, op] e := by
  by_cases hn : n = 1
  · subst hn
    exact ⟨_, .shiftOne s h⟩
  · exact ⟨_, .shiftImm s h hn ((Width.fits_iff .byte n).mpr ⟨h0, h1⟩)⟩

theorem Selects.notMem_wide {m : Mnemonic} {ops : List Operand} {e : Encoding}
    (h : Selects w m ops e) (hw : w = .byte) : m ∉ Operator.wide := by
  cases h with
  | lea _ _ hne | pushReg _ hne | pushImm _ hne | pushMem _ hne | popReg _ hne | popMem _ hne =>
    exact absurd hw hne
  | _ => simp [Operator.wide]

end Encoding

/-- An instruction that is read at the current width `w` has an encoding, unless it is a branch. If
it is without operands, its width is the current one. -/
inductive Instr.Encodable (w : Width) (i : Instr) : Prop where
  | branch (hm : i.mnemonic.isBranch = true)
  | selected {e : Encoding} (h : Encoding.Selects i.width i.mnemonic i.operands e)
      (hplain : i.mnemonic.plainOpcode?.isSome = true → i.width = w)

theorem Instr.Encodable.of_selects {w : Width} {i : Instr}
    (h : ∃ e, Encoding.Selects i.width i.mnemonic i.operands e)
    (hm : i.mnemonic.plainOpcode?.isSome = false) : i.Encodable w := by
  obtain ⟨e, he⟩ := h
  exact .selected he fun hplain => absurd hplain (ne_true_of_eq_false hm)

theorem Reading.yields_immByte_isImm (w : Width) :
    (immByte w).Yields fun op => ∃ n, op = .imm n :=
  Yields.trivial.bind fun _ _ => .pure ⟨_, rfl⟩

/-- **What follows an opcode** has an encoding of its own. -/
theorem Opcode.yields_encodable (o : Opcode) {w : Width} (hw : w ≠ .byte) :
    (o.operands w).Yields (Instr.Encodable w) := by
  cases o with
  | aluStore op wide =>
    exact (Reading.yields_modRM _).bind fun p hp =>
      .pure (.of_selects ⟨_, .aluStore op ⟨_, p.1⟩ hp.2⟩ rfl)
  | aluLoad op wide =>
    exact (Reading.yields_modRM _).bind fun p hp =>
      .pure (.of_selects (Encoding.exists_selects_alu_load op hp.2 _) rfl)
  | aluAcc op wide =>
    refine (Reading.yields_imm _).bind fun _ hn => ?_
    obtain ⟨n, rfl, -⟩ := hn
    exact .pure (.of_selects ⟨_, .aluAcc op n rfl⟩ rfl)
  | aluImm wide =>
    refine (Reading.yields_modRM _).bind fun p hp => (Reading.yields_imm _).bind fun _ hn => ?_
    obtain ⟨n, rfl, -⟩ := hn
    exact .pure (.of_selects (Encoding.exists_selects_alu_imm _ n hp.2) rfl)
  | aluImmByte =>
    refine (Reading.yields_modRM _).bind fun p hp => ?_
    refine (Reading.yields_immByte_isImm _).bind fun _ hn => ?_
    obtain ⟨n, rfl⟩ := hn
    exact .pure (.of_selects (Encoding.exists_selects_alu_imm _ n hp.2) rfl)
  | incReg r => exact .pure (.of_selects (Encoding.exists_selects_step rfl).1 rfl)
  | decReg r => exact .pure (.of_selects (Encoding.exists_selects_step rfl).2 rfl)
  | pushReg r => exact .pure (.of_selects (Encoding.exists_selects_push hw rfl) rfl)
  | popReg r => exact .pure (.of_selects (Encoding.exists_selects_pop hw rfl) rfl)
  | pushImm =>
    refine (Reading.yields_imm _).bind fun _ hn => ?_
    obtain ⟨n, rfl, -⟩ := hn
    exact .pure (.of_selects ⟨_, .pushImm n hw⟩ rfl)
  | pushImmByte =>
    refine (Reading.yields_immByte_isImm _).bind fun _ hn => ?_
    obtain ⟨n, rfl⟩ := hn
    exact .pure (.of_selects ⟨_, .pushImm n hw⟩ rfl)
  | popRM =>
    refine (Reading.yields_modRM _).bind fun p hp => ?_
    dsimp only
    split
    · exact .pure (.of_selects (Encoding.exists_selects_pop hw hp.2) rfl)
    · exact .refuse
  | jccByte c | jcc c | jmpByte | jmp | call =>
    exact Reading.Yields.trivial.bind fun n _ => .pure (.branch rfl)
  | testStore wide =>
    exact (Reading.yields_modRM _).bind fun p hp =>
      .pure (.of_selects ⟨_, .testStore ⟨_, p.1⟩ hp.2⟩ rfl)
  | testAcc wide =>
    refine (Reading.yields_imm _).bind fun _ hn => ?_
    obtain ⟨n, rfl, -⟩ := hn
    exact .pure (.of_selects ⟨_, .testAcc n rfl⟩ rfl)
  | movStore wide =>
    exact (Reading.yields_modRM _).bind fun p hp =>
      .pure (.of_selects ⟨_, .movStore ⟨_, p.1⟩ hp.2⟩ rfl)
  | movLoad wide =>
    exact (Reading.yields_modRM _).bind fun p hp =>
      .pure (.of_selects (Encoding.exists_selects_mov_load hp.2 _) rfl)
  | movReg wide r =>
    refine (Reading.yields_imm _).bind fun _ hn => ?_
    obtain ⟨n, rfl, -⟩ := hn
    exact .pure (.of_selects ⟨_, .movReg n _⟩ rfl)
  | movImm wide =>
    refine (Reading.yields_modRM _).bind fun p hp => ?_
    dsimp only
    split
    · refine (Reading.yields_imm _).bind fun _ hn => ?_
      obtain ⟨n, rfl, -⟩ := hn
      exact .pure (.of_selects (Encoding.exists_selects_mov_imm n hp.2) rfl)
    · exact .refuse
  | lea =>
    refine (Reading.yields_modRM _).bind fun p hp => ?_
    obtain ⟨r, op⟩ := p
    cases hp.1 with
    | @mem m hm => exact .pure (.of_selects ⟨_, .lea m ⟨w, r⟩ hw⟩ rfl)
    | reg hr | imm h0 h1 => exact .refuse
  | shiftImm wide =>
    refine (Reading.yields_modRM _).bind fun p hp => (Reading.yields_imm .byte).bind fun _ hn => ?_
    obtain ⟨n, rfl, h0, h1⟩ := hn
    exact .pure (.of_selects (Encoding.exists_selects_shift _ h0 h1 hp.2) rfl)
  | shiftOne wide =>
    exact (Reading.yields_modRM _).bind fun p hp =>
      .pure (.of_selects ⟨_, .shiftOne _ hp.2⟩ rfl)
  | shiftCl wide =>
    exact (Reading.yields_modRM _).bind fun p hp =>
      .pure (.of_selects ⟨_, .shiftCl _ hp.2⟩ rfl)
  | groupThree wide =>
    refine (Reading.yields_modRM _).bind fun p hp => ?_
    dsimp only
    split
    · refine (Reading.yields_imm _).bind fun _ hn => ?_
      obtain ⟨n, rfl, -⟩ := hn
      exact .pure (.of_selects (Encoding.exists_selects_test_imm n hp.2) rfl)
    · exact Reading.Yields.trivial.bind fun op _ => .pure (.of_selects ⟨_, .unary op hp.2⟩ rfl)
  | groupFive wide =>
    refine (Reading.yields_modRM _).bind fun p hp => ?_
    dsimp only
    split
    · exact .pure (.of_selects (Encoding.exists_selects_step hp.2).1 rfl)
    · split
      · exact .pure (.of_selects (Encoding.exists_selects_step hp.2).2 rfl)
      · split
        · exact .pure (.of_selects (Encoding.exists_selects_push hw hp.2) rfl)
        · exact .refuse
  | plain op => exact .pure (.selected (.plain op) fun _ => rfl)

theorem Reading.reads_instr_cases {bs : List Byte} {i : Instr} (h : instr.Reads bs i) :
    ∃ (o : Opcode) (w : Width) (cs : List Byte), (o.operands w).Reads cs i ∧
      (w = .word ∧ bs.head? = some wordMark ∨ w = .long) := by
  obtain ⟨first, before, cs, rfl, hfirst, hrest⟩ := reads_bind.mp h
  obtain rfl := reads_byte.mp hfirst
  split at hrest
  · next hmark =>
    obtain ⟨second, _, cs, rfl, -, hopcode⟩ := reads_bind.mp hrest
    obtain ⟨o, _, cs, rfl, -, hoperands⟩ := reads_bind.mp hopcode
    exact ⟨o, .word, cs, hoperands, .inl ⟨rfl, congrArg some hmark⟩⟩
  · obtain ⟨o, _, cs, rfl, -, hoperands⟩ := reads_bind.mp hrest
    exact ⟨o, .long, cs, hoperands, .inr rfl⟩

/-! ## Operands of what is read -/

theorem MemRef.Decodable.canonical_eq {m : MemRef} (h : m.Decodable) : m.canonical = m := by
  unfold MemRef.canonical
  split
  · next hindex =>
    rw [← h.scale (Option.isNone_iff_eq_none.mp hindex)]
  · rfl

namespace Operand.OfWidth

variable {w : Width} {op : Operand}

theorem canonical_eq (h : op.OfWidth w) : op.canonical w = op := by
  cases h with
  | reg hr => rfl
  | imm h0 h1 => exact congrArg Operand.imm (Int.emod_eq_of_lt h0 h1)
  | mem hm => exact congrArg Operand.mem hm.canonical_eq

/-- **An operand that is read** is built again from its written form. -/
theorem resolve_raw (h : op.OfWidth w) (hsupported : ∀ m, op = .mem m → m.Supported) :
    op.raw.resolve = .ok op := by
  cases h with
  | reg hr => exact Operand.resolve_raw (.reg _) nofun
  | @imm n h0 h1 =>
    have hbits : (2 : Int) ^ w.bits ≤ 2 ^ 32 := pow_le_pow_right₀ (by decide) w.bits_le
    exact Operand.resolve_raw (.imm (by omega) (by omega)) nofun
  | @mem m hm =>
    obtain ⟨hoffset, ⟨b, hb, -⟩, -⟩ := hsupported m rfl
    have hwritable : (Operand.mem m).Writable :=
      .mem (.inl (by rw [hb]; rfl)) (by omega) (by omega)
    have hresolve := Operand.resolve_raw hwritable fun m' hm' => by
      cases hm'
      exact hm.isLong
    rwa [Operand.reread, hm.canonical_eq] at hresolve

end Operand.OfWidth

namespace Mnemonic.Takes

variable {m : Mnemonic} {w : Width} {ops : List Operand}

theorem ofWidth_cases (h : m.Takes w ops) (hm : m.isBranch = false) :
    m.isShift = false ∧ (∀ op ∈ ops, op.OfWidth w) ∨
      m.isShift = true ∧ ∃ src dst v, ops = [src, dst] ∧ src.OfWidth v ∧ dst.OfWidth w := by
  cases h with
  | mov hs hd | alu _ hs hd | test hs hd =>
    exact .inl ⟨rfl, List.forall_mem_cons.mpr ⟨hs, List.forall_mem_singleton.mpr hd⟩⟩
  | lea hs hr =>
    exact .inl ⟨rfl, List.forall_mem_cons.mpr ⟨.mem hs, List.forall_mem_singleton.mpr (.reg hr)⟩⟩
  | push hd | pop hd | unary _ hd | inc hd | dec hd =>
    exact .inl ⟨rfl, List.forall_mem_singleton.mpr hd⟩
  | shiftBy _ h0 h1 hd => exact .inr ⟨rfl, _, _, w, rfl, .imm h0 h1, hd⟩
  | shiftCl _ hd => exact .inr ⟨rfl, _, _, .byte, rfl, .reg rfl, hd⟩
  | branch hb => exact absurd hb (ne_true_of_eq_false hm)
  | plain op => exact .inl ⟨rfl, List.forall_mem_nil _⟩

theorem exists_ofWidth (h : m.Takes w ops) (hm : m.isBranch = false) {op : Operand}
    (hop : op ∈ ops) : ∃ v, op.OfWidth v := by
  rcases h.ofWidth_cases hm with ⟨-, hall⟩ | ⟨-, src, dst, v, rfl, hs, hd⟩
  · exact ⟨w, hall op hop⟩
  · rcases List.mem_pair.mp hop with rfl | rfl
    · exact ⟨v, hs⟩
    · exact ⟨w, hd⟩

theorem canonicalList_eq (h : m.Takes w ops) (hm : m.isBranch = false) :
    Operand.canonicalList m w ops = ops := by
  unfold Operand.canonicalList
  rcases h.ofWidth_cases hm with ⟨hshift, hall⟩ | ⟨hshift, src, dst, v, rfl, -, hd⟩
  · rw [hshift]
    exact (List.map_congr_left fun op hop => (hall op hop).canonical_eq).trans (List.map_id _)
  · rw [hshift]
    exact congrArg (src :: [·]) hd.canonical_eq

theorem width_eq (h : m.Takes w ops) (hm : m.isBranch = false) {r : Reg}
    (hr : .reg r ∈ sizedOperands m ops) : r.width = w := by
  have hwidth : ∀ {op : Operand}, op.OfWidth w → op = .reg r → r.width = w := by
    rintro _ (hr | _ | _) ⟨⟩
    exact hr
  unfold sizedOperands at hr
  rcases h.ofWidth_cases hm with ⟨hshift, hall⟩ | ⟨hshift, src, dst, v, rfl, -, hd⟩
  · rw [hshift] at hr
    exact hwidth (hall _ hr) rfl
  · rw [hshift] at hr
    exact hwidth hd (List.mem_singleton.mp hr).symm

end Mnemonic.Takes

/-! ## Written, assembled and decoded again -/

/-- **An instruction that is read** is built of its operator and its operands, unless it is a branch
or has an address that cannot be encoded. -/
theorem Instruction.ofRaw_of_takes {m : Mnemonic} {w : Width} {ops : List Operand} {e : Encoding}
    (ht : m.Takes w ops) (hm : m.isBranch = false) (he : Encoding.Selects w m ops e)
    (hsupported : ∀ ref, .mem ref ∈ ops → ref.Supported)
    (hplain : m.plainOpcode?.isSome = true → w ≠ .byte) (hlong : m ∈ Operator.unsized → w = .long) :
    ofRaw (Operator.spelling m w) (ops.map Operand.raw) =
      .ok ⟨Operator.spelling m w, ⟨m, w, ops⟩⟩ := by
  have hsized : w = .byte → m ∈ Operator.sized ++ Operator.unsized := fun hw =>
    Operator.mem_sized_append_unsized (he.notMem_wide hw)
      (Bool.eq_false_iff.mpr fun hp => hplain hp hw)
  have hops : (ops.map Operand.raw).mapM RawOperand.resolve = .ok ops := by
    rw [mapM_ok_iff, List.forall₂_map_left_iff, List.forall₂_same]
    intro op hop
    obtain ⟨v, hv⟩ := ht.exists_ofWidth hm hop
    refine hv.resolve_raw ?_
    rintro ref rfl
    exact hsupported ref hop
  refine ofRaw_ok_iff.mpr ⟨m, _, ops, w, Operator.find?_spelling hsized, hops, ?_, ⟨e, he⟩, rfl⟩
  refine inferWidth_of_width (fun r hr => ht.width_eq hm hr) ?_
  split
  · next hmem => exact .inr ⟨rfl, hlong hmem⟩
  · exact .inl rfl

/-- What is decoded and is no branch has an encoding, and without operands it is of words or longs,
as the first byte announces. -/
theorem selects_of_decode {bs : List Byte} {address : Long} {d : Decoded}
    (h : decode bs address = .ok (some d)) (hm : d.mnemonic.isBranch = false) :
    ∃ e, Encoding.Selects d.width d.mnemonic d.operands e ∧
      (d.mnemonic.plainOpcode?.isSome = true →
        d.width = .word ∧ bs.head? = some wordMark ∨ d.width = .long) := by
  obtain ⟨i, n, hrun, rfl⟩ := decode_ok_iff.mp h
  obtain ⟨cs, rest, rfl, hreads, -⟩ := Reading.reads_of_run hrun
  obtain ⟨o, w, cs', hoperands, hw⟩ := Reading.reads_instr_cases hreads
  have hbyte : w ≠ .byte := by
    rcases hw with ⟨rfl, -⟩ | rfl <;> decide
  have hops : (i.place address n).operands = i.operands := if_neg (ne_true_of_eq_false hm)
  cases o.yields_encodable hbyte cs' i hoperands with
  | branch hbranch => exact absurd hbranch (ne_true_of_eq_false hm)
  | @selected e he hplain =>
    refine ⟨e, hops ▸ he, fun hp => ?_⟩
    rcases hw with ⟨rfl, hhead⟩ | rfl
    · exact .inl ⟨hplain hp, by rw [List.head?_append, hhead]; rfl⟩
    · exact .inr (hplain hp)

/-- **Whatever is decoded can be written**, but for branches, for addresses that cannot be encoded,
and for instructions on words whose operators fix no width. The instruction that is built of the
operator and the operands has code, which is decoded as the instruction again; only `sal` becomes
`shl`. An index that is decoded is never `esp`. -/
theorem decoded_expressible {bs : List Byte} {address : Long} {d : Decoded}
    (h : decode bs address = .ok (some d)) (hm : d.mnemonic.isBranch = false)
    (hmem : ∀ ref, .mem ref ∈ d.operands → ref.offset = 0 ∧ ∃ b, ref.base = some b ∧ b ≠ .ebp)
    (hmark : bs.head? = some wordMark → d.mnemonic ∉ Operator.unsized) :
    ∃ i, Instruction.ofRaw (Operator.spelling d.mnemonic d.width) (d.operands.map Operand.raw) =
        .ok i ∧
      ∀ layout index, ∃ code, i.bytes layout index = .ok code ∧
        ∀ rest a, ∃ d', decode (code ++ rest) a = .ok (some d') ∧ d'.length = code.length ∧
          d'.width = d.width ∧ d'.operands = d.operands ∧
          d'.mnemonic = d.mnemonic.canonical := by
  have ht := (decode_cases h).1
  obtain ⟨e, he, hplain⟩ := selects_of_decode h hm
  have hsupported : ∀ ref, .mem ref ∈ d.operands → ref.Supported := by
    intro ref href
    obtain ⟨hoffset, b, hb, hne⟩ := hmem ref href
    obtain ⟨v, hv⟩ := ht.exists_ofWidth hm href
    cases hv with
    | mem hdecodable => exact ⟨hoffset, ⟨b, hb, hdecodable.isLong.base b hb, hne⟩, hdecodable.index⟩
  have hlong : d.mnemonic ∈ Operator.unsized → d.width = .long := by
    intro hunsized
    rcases hplain (Operator.plainOpcode?_of_mem_unsized hunsized hm) with ⟨-, hhead⟩ | hlong
    · exact absurd hunsized (hmark hhead)
    · exact hlong
  have hbyte : d.mnemonic.plainOpcode?.isSome = true → d.width ≠ .byte := by
    intro hp
    rcases hplain hp with ⟨hword, -⟩ | hlong
    · rw [hword]
      decide
    · rw [hlong]
      decide
  have hof := Instruction.ofRaw_of_takes ht hm he hsupported hbyte hlong
  have hwf := Instruction.ofRaw_wellFormed hof
  refine ⟨_, hof, fun layout index => ?_⟩
  obtain ⟨code, hcode⟩ := hwf.bytes_iff.mpr
    ⟨hsupported, fun name hname => absurd hname (he.no_label hm name)⟩
  have hreads := hwf.reads hm hcode
  refine ⟨code, hcode, fun rest a => ⟨_, decode_ok_iff.mpr ⟨_, _, hreads.run rest, rfl⟩, rfl, rfl,
    ?_, rfl⟩⟩
  have hcanonical : d.mnemonic.canonical.isBranch = false := by
    rw [Mnemonic.isBranch_canonical, hm]
  exact (if_neg (ne_true_of_eq_false hcanonical)).trans (ht.canonicalList_eq hm)

/-- The second code of a shift to the left, read as `sal`, is written as the first one. -/
theorem decoded_expressible_salw :
    ∃ d, decode [0x66, 0xD1, 0x34, 0x8B] 0 = .ok (some d) ∧ d.mnemonic = .shift .sal ∧
      (∀ ref, .mem ref ∈ d.operands → ref.offset = 0 ∧ ∃ b, ref.base = some b ∧ b ≠ .ebp) ∧
      d.mnemonic ∉ Operator.unsized ∧
      ∃ i, Instruction.ofRaw "salw" (d.operands.map Operand.raw) = .ok i ∧
        ∃ code d', i.bytes ⟨[], []⟩ 0 = .ok code ∧ decode code 0 = .ok (some d') ∧
          d'.operands = d.operands ∧ d'.mnemonic = .shift .shl := by
  have hd : decode [0x66, 0xD1, 0x34, 0x8B] 0 = .ok (some ⟨⟨.shift .sal, .word,
      [.imm 1, .mem { base := some .ebx, index := some .ecx, scale := .four }]⟩, 0, 4⟩) := by
    decide +kernel
  have hmem : ∀ ref, .mem ref ∈ [Operand.imm 1,
      .mem { base := some .ebx, index := some .ecx, scale := .four }] →
      ref.offset = 0 ∧ ∃ b, ref.base = some b ∧ b ≠ .ebp := by
    intro ref href
    simp only [List.mem_cons, reduceCtorEq, Operand.mem.injEq, List.not_mem_nil, or_false,
      false_or] at href
    rw [href]
    exact ⟨rfl, _, rfl, by decide⟩
  have hmark : Mnemonic.shift .sal ∉ Operator.unsized := by decide
  obtain ⟨i, hi, hbytes⟩ := decoded_expressible hd rfl hmem fun _ => hmark
  obtain ⟨code, hcode, hdecode⟩ := hbytes ⟨[], []⟩ 0
  obtain ⟨d', hd', -, -, hops, hmnemonic⟩ := hdecode [] 0
  rw [List.append_nil] at hd'
  exact ⟨_, hd, rfl, hmem, hmark, i, hi, code, d', hcode, hd', hops, hmnemonic⟩

end Ia32
