import Ia32.Proofs.OperandBytes

/-!
# What is decoded

* `MemRef.Decodable`, `Operand.OfWidth`: addresses and operands as they are read;
* `Mnemonic.Takes`: the operands with which each instruction is read;
* **`Reading.yields_takes`**: every instruction that is read has such operands;
* `decode_cases`: so has every instruction that is decoded, and the target of a branch is an
  address.
-/

set_option autoImplicit false

namespace Ia32

/-! ## Operands -/

/-- The addresses that are read: the registers are long ones, the index is not `esp`, and without
an index the scale is one. -/
structure MemRef.Decodable (m : MemRef) : Prop where
  isLong : m.IsLong
  index : m.index ≠ some .esp
  scale : m.index = none → m.scale = .one

/-- The operands that are read for an instruction of a width. -/
inductive Operand.OfWidth (w : Width) : Operand → Prop where
  | reg {r : Reg} (hr : r.width = w) : OfWidth w (reg r)
  | imm {n : Int} (h0 : 0 ≤ n) (h1 : n < 2 ^ w.bits) : OfWidth w (imm n)
  | mem {m : MemRef} (hm : m.Decodable) : OfWidth w (mem m)

theorem Operand.OfWidth.imm_toNat {w : Width} {v : Long} (h : v.toNat < 2 ^ w.bits) :
    OfWidth w (.imm v.toNat) :=
  .imm (Int.natCast_nonneg _) (by exact_mod_cast h)

theorem Operand.OfWidth.ne_label {w : Width} {op : Operand} (h : op.OfWidth w) (name : String) :
    op ≠ .label name := by
  cases h <;> exact nofun

/-- The operands with which an instruction of a width is read. -/
inductive Mnemonic.Takes (w : Width) : Mnemonic → List Operand → Prop where
  | mov {src dst : Operand} (hs : src.OfWidth w) (hd : dst.OfWidth w) (hrm : dst.isRM = true) :
      Takes w mov [src, dst]
  | alu (op : AluOp) {src dst : Operand} (hs : src.OfWidth w) (hd : dst.OfWidth w)
      (hrm : dst.isRM = true) : Takes w (alu op) [src, dst]
  | test {src dst : Operand} (hs : src.OfWidth w) (hd : dst.OfWidth w) : Takes w test [src, dst]
  | lea {m : MemRef} (hm : m.Decodable) {r : Reg} (hr : r.width = w) :
      Takes w lea [.mem m, .reg r]
  | push {src : Operand} (hs : src.OfWidth w) : Takes w push [src]
  | pop {dst : Operand} (hd : dst.OfWidth w) (hrm : dst.isRM = true) : Takes w pop [dst]
  | unary (op : UnaryOp) {dst : Operand} (hd : dst.OfWidth w) (hrm : dst.isRM = true) :
      Takes w (unary op) [dst]
  | inc {dst : Operand} (hd : dst.OfWidth w) (hrm : dst.isRM = true) : Takes w inc [dst]
  | dec {dst : Operand} (hd : dst.OfWidth w) (hrm : dst.isRM = true) : Takes w dec [dst]
  | shiftBy (op : ShiftOp) {n : Int} (h0 : 0 ≤ n) (h1 : n < 2 ^ w.bits) {dst : Operand}
      (hd : dst.OfWidth w) (hrm : dst.isRM = true) : Takes w (shift op) [.imm n, dst]
  | shiftCl (op : ShiftOp) {dst : Operand} (hd : dst.OfWidth w) (hrm : dst.isRM = true) :
      Takes w (shift op) [.reg .cl, dst]
  | branch {m : Mnemonic} (hm : m.isBranch = true) (hw : w = .long) (n : Int) : Takes w m [.imm n]
  | plain (op : PlainOp) : Takes w (plain op) []

theorem Mnemonic.Takes.of_isBranch {w : Width} {m : Mnemonic} {ops : List Operand}
    (h : m.Takes w ops) (hm : m.isBranch = true) : w = .long ∧ ∃ n, ops = [.imm n] := by
  cases h with
  | branch hb hw n => exact ⟨hw, n, rfl⟩
  | _ => cases hm

/-! ## Readings -/

theorem Width.bits_byte_le (w : Width) : Width.byte.bits ≤ w.bits := by
  cases w <;> decide

namespace Reading

theorem yields_imm (w : Width) :
    (imm w).Yields fun op => ∃ n : Int, op = .imm n ∧ 0 ≤ n ∧ n < 2 ^ w.bits := by
  refine (yields_value w).bind fun v hv => .pure ⟨v.toNat, rfl, Int.natCast_nonneg _, ?_⟩
  exact_mod_cast hv

theorem yields_imm_ofWidth (w : Width) : (imm w).Yields (Operand.OfWidth w) := by
  refine (yields_imm w).mono ?_
  rintro _ ⟨n, rfl, h0, h1⟩
  exact .imm h0 h1

theorem yields_immByte (w : Width) : (immByte w).Yields (Operand.OfWidth w) :=
  Yields.trivial.bind fun _ _ => .pure (.imm_toNat (w.truncate_toNat_lt _))

theorem yields_address (mode : BitVec 2) (low : BitVec 3) :
    (address mode low).Yields MemRef.Decodable := by
  unfold address
  split
  · refine Yields.trivial.bind fun b _ => ?_
    dsimp only
    generalize Fields.ofByte b = second
    have hbase : ∀ r, (if mode = ModRM.indirect ∧ second.low = ModRM.noBase then none
        else some (⟨.long, second.low⟩ : Reg)) = some r → r.width = .long := by
      intro r hr
      split at hr
      · cases hr
      · cases hr
        rfl
    by_cases hindex : second.mid = ModRM.noIndex
    · rw [if_pos hindex]
      exact .pure ⟨⟨hbase, nofun⟩, nofun, fun _ => rfl⟩
    · rw [if_neg hindex]
      refine .pure ⟨⟨hbase, ?_⟩, fun h => hindex ?_, nofun⟩
      · rintro r ⟨⟩
        rfl
      · exact congrArg Reg.code (Option.some.inj h)
  · split
    · exact .pure ⟨⟨nofun, nofun⟩, nofun, fun _ => rfl⟩
    · refine .pure ⟨⟨?_, nofun⟩, nofun, fun _ => rfl⟩
      rintro r ⟨⟩
      rfl

theorem yields_modRM (w : Width) :
    (modRM w).Yields fun p => p.2.OfWidth w ∧ p.2.isRM = true := by
  refine Yields.trivial.bind fun b _ => ?_
  dsimp only
  split
  · exact .pure ⟨.reg rfl, rfl⟩
  · refine (yields_address _ _).bind fun m hm => Yields.trivial.bind fun n _ => ?_
    exact .pure ⟨.mem ⟨⟨hm.isLong.base, hm.isLong.index⟩, hm.index, hm.scale⟩, rfl⟩

end Reading

theorem Opcode.yields_operands (o : Opcode) (w : Width) :
    (o.operands w).Yields fun i => i.mnemonic.Takes i.width i.operands := by
  cases o with
  | aluStore op wide =>
    exact (Reading.yields_modRM _).bind fun p hp => .pure (.alu op (.reg rfl) hp.1 hp.2)
  | aluLoad op wide =>
    exact (Reading.yields_modRM _).bind fun p hp => .pure (.alu op hp.1 (.reg rfl) rfl)
  | aluAcc op wide =>
    exact (Reading.yields_imm_ofWidth _).bind fun n hn => .pure (.alu op hn (.reg rfl) rfl)
  | aluImm wide =>
    refine (Reading.yields_modRM _).bind fun p hp => ?_
    exact (Reading.yields_imm_ofWidth _).bind fun n hn => .pure (.alu _ hn hp.1 hp.2)
  | aluImmByte =>
    refine (Reading.yields_modRM _).bind fun p hp => ?_
    exact (Reading.yields_immByte _).bind fun n hn => .pure (.alu _ hn hp.1 hp.2)
  | incReg r => exact .pure (.inc (.reg rfl) rfl)
  | decReg r => exact .pure (.dec (.reg rfl) rfl)
  | pushReg r => exact .pure (.push (.reg rfl))
  | popReg r => exact .pure (.pop (.reg rfl) rfl)
  | pushImm => exact (Reading.yields_imm_ofWidth _).bind fun n hn => .pure (.push hn)
  | pushImmByte => exact (Reading.yields_immByte _).bind fun n hn => .pure (.push hn)
  | popRM =>
    refine (Reading.yields_modRM _).bind fun p hp => ?_
    dsimp only
    split
    · exact .pure (.pop hp.1 hp.2)
    · exact .refuse
  | jccByte c | jcc c | jmpByte | jmp | call =>
    exact Reading.Yields.trivial.bind fun n _ => .pure (.branch rfl rfl n)
  | testStore wide =>
    exact (Reading.yields_modRM _).bind fun p hp => .pure (.test (.reg rfl) hp.1)
  | testAcc wide =>
    exact (Reading.yields_imm_ofWidth _).bind fun n hn => .pure (.test hn (.reg rfl))
  | movStore wide =>
    exact (Reading.yields_modRM _).bind fun p hp => .pure (.mov (.reg rfl) hp.1 hp.2)
  | movLoad wide =>
    exact (Reading.yields_modRM _).bind fun p hp => .pure (.mov hp.1 (.reg rfl) rfl)
  | movReg wide r =>
    exact (Reading.yields_imm_ofWidth _).bind fun n hn => .pure (.mov hn (.reg rfl) rfl)
  | movImm wide =>
    refine (Reading.yields_modRM _).bind fun p hp => ?_
    dsimp only
    split
    · exact (Reading.yields_imm_ofWidth _).bind fun n hn => .pure (.mov hn hp.1 hp.2)
    · exact .refuse
  | lea =>
    refine (Reading.yields_modRM _).bind fun p hp => ?_
    obtain ⟨r, op⟩ := p
    cases hp.1 with
    | mem hm => exact .pure (.lea hm rfl)
    | reg hr | imm h0 h1 => exact .refuse
  | shiftImm wide =>
    refine (Reading.yields_modRM _).bind fun p hp => ?_
    refine (Reading.yields_imm .byte).bind fun op hop => ?_
    obtain ⟨n, rfl, h0, h1⟩ := hop
    -- a count is a byte whatever the width, and a byte is a value of every width
    have hbits : (2 : Int) ^ Width.byte.bits ≤ 2 ^ (w.ofWide wide).bits :=
      pow_le_pow_right₀ (by decide) (Width.bits_byte_le _)
    exact .pure (.shiftBy _ h0 (lt_of_lt_of_le h1 hbits) hp.1 hp.2)
  | shiftOne wide =>
    refine (Reading.yields_modRM _).bind fun p hp => ?_
    have hone : (1 : Int) < 2 ^ (w.ofWide wide).bits :=
      one_lt_pow₀ (by decide) (Width.bits_pos _).ne'
    exact .pure (.shiftBy _ Int.one_nonneg hone hp.1 hp.2)
  | shiftCl wide =>
    exact (Reading.yields_modRM _).bind fun p hp => .pure (.shiftCl _ hp.1 hp.2)
  | groupThree wide =>
    refine (Reading.yields_modRM _).bind fun p hp => ?_
    dsimp only
    split
    · exact (Reading.yields_imm_ofWidth _).bind fun n hn => .pure (.test hn hp.1)
    · exact Reading.Yields.trivial.bind fun op _ => .pure (.unary op hp.1 hp.2)
  | groupFive wide =>
    refine (Reading.yields_modRM _).bind fun p hp => ?_
    dsimp only
    split
    · exact .pure (.inc hp.1 hp.2)
    · split
      · exact .pure (.dec hp.1 hp.2)
      · split
        · next hwide =>
          obtain ⟨-, rfl⟩ := hwide
          exact .pure (.push hp.1)
        · exact .refuse
  | plain op => exact .pure (.plain op)

/-- **Every instruction that is read** has operands that suit it. -/
theorem Reading.yields_takes :
    instr.Yields fun i => i.mnemonic.Takes i.width i.operands :=
  yields_instr fun o w _ => o.yields_operands w

/-! ## Decoding -/

section Decode

variable {bs : List Byte} {address : Long} {d : Decoded}

theorem decode_ok_iff : decode bs address = .ok (some d) ↔
    ∃ i n, Reading.instr.run bs = .done i n ∧ i.place address n = d := by
  rw [decode_eq_run]
  cases Reading.instr.run bs <;> simp

theorem decode_cases (h : decode bs address = .ok (some d)) :
    d.mnemonic.Takes d.width d.operands ∧
      (d.mnemonic.isBranch = true → ∃ n : Int, d.operands = [.imm n] ∧ 0 ≤ n ∧ n < 2 ^ 32) := by
  obtain ⟨i, n, hrun, rfl⟩ := decode_ok_iff.mp h
  obtain ⟨cs, rest, -, hreads, -⟩ := Reading.reads_of_run hrun
  have htakes := Reading.yields_takes cs i hreads
  unfold Instr.place
  by_cases hm : i.mnemonic.isBranch = true
  · obtain ⟨hw, distance, hops⟩ := htakes.of_isBranch hm
    rw [if_pos hm, hops]
    exact ⟨.branch hm hw _, fun _ => ⟨_, rfl, Int.emod_nonneg _ (by decide),
      Int.emod_lt_of_pos _ (by decide)⟩⟩
  · rw [if_neg hm]
    exact ⟨htakes, fun h => absurd h hm⟩

end Decode

end Ia32
