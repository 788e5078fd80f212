import Ia32.Machine.Decode
import Ia32.Proofs.Bytes
import Ia32.Proofs.Opcode

/-!
# The decoder as a reading

A decoder has a whole string of bytes at hand, and takes the bytes of a value all at once. A reading
is handed one byte after another. The decoder of instructions does what a reading does.

* `Reading.modRM`, `Opcode.operands`, `Reading.instr`: the readings of an operand, of what follows
  an opcode, and of an instruction, by the table of opcodes;
* `Decoder.Follows`: a decoder does what a reading does; `Follows.bind`: one part at a time;
  `Follows.take`: the bytes that it takes, wherever they stand;
  `Decoder.value_follows`: values;
* `Opcode.ofByte?`: the choices of the decoder by the first byte; **`Opcode.ofBytes?_singleton`**:
  they are those of the table of opcodes;
* `Decoder.body_follows`, **`decode_eq_run`**: the decoder of instructions follows their reading;
* `Reading.reads_opcode`, `Reading.reads_instr_long`, `Reading.reads_instr_word`: an instruction by
  its opcode; `Reading.yields_instr`: every instruction has one.
-/

set_option autoImplicit false

namespace Ia32

/-! ## Readings of instructions -/

namespace Reading

/-- A constant of a width, without a sign. -/
def imm (w : Width) : Reading Operand := do
  let v ← value w
  return .imm v.toNat

/-- A constant of one byte, its sign extended to a width. -/
def immByte (w : Width) : Reading Operand := do
  let v ← value .byte
  return .imm (w.truncate (Width.byte.signed v)).toNat

/-- A distance, with its sign. -/
def distance (w : Width) : Reading Int := do
  let v ← value w
  return w.signed v

/-- The base and the index of an address in memory, given the mode and the low field of the
operand byte. -/
def address (mode : BitVec 2) (low : BitVec 3) : Reading MemRef :=
  if low = ModRM.hasIndex then do
    let second := Fields.ofByte (← byte)
    let base : Option Reg :=
      if mode = ModRM.indirect ∧ second.low = ModRM.noBase then none
      else some ⟨.long, second.low⟩
    if second.mid = ModRM.noIndex then return { base }
    return { base, index := some ⟨.long, second.mid⟩, scale := Scale.ofCode second.high }
  else if mode = ModRM.indirect ∧ low = ModRM.noBase then return {}
  else return { base := some ⟨.long, low⟩ }

/-- The offset of an address, given the mode and whether the address has a base. -/
def offset (mode : BitVec 2) (hasBase : Bool) : Reading Int :=
  if mode = ModRM.offsetByte then distance .byte
  else if mode = ModRM.offsetLong then distance .long
  else if hasBase then return 0
  else do
    let v ← value .long
    return v.toNat

/-- An operand of a width, after the field that stands beside it. -/
def modRM (w : Width) : Reading (BitVec 3 × Operand) := do
  let f := Fields.ofByte (← byte)
  if f.high = ModRM.direct then return (f.mid, .reg ⟨w, f.low⟩)
  let m ← address f.high f.low
  let offset ← offset f.high m.base.isSome
  return (f.mid, .mem { m with offset })

/-- The address that a second byte describes, given the mode. -/
def indexed (mode : BitVec 2) (second : Fields) : MemRef :=
  let base : Option Reg :=
    if mode = ModRM.indirect ∧ second.low = ModRM.noBase then none
    else some ⟨.long, second.low⟩
  if second.mid = ModRM.noIndex then { base }
  else { base, index := some ⟨.long, second.mid⟩, scale := Scale.ofCode second.high }

theorem address_hasIndex (mode : BitVec 2) :
    address mode ModRM.hasIndex = byte >>= fun b => pure (indexed mode (.ofByte b)) := by
  refine congrArg (byte >>= ·) (funext fun b => ?_)
  unfold indexed
  dsimp only
  split <;> rfl

theorem base_indexed {mode : BitVec 2} {second : Fields} : (indexed mode second).base = none ↔
    mode = ModRM.indirect ∧ second.low = ModRM.noBase := by
  unfold indexed
  dsimp only
  split <;> exact ite_eq_left_iff.trans (by simp)

end Reading

/-- The width of an opcode that has a byte form. -/
def Width.ofWide (w : Width) (wide : Bool) : Width := if wide then w else .byte

/-- The instruction that an opcode starts, given the width other than a byte. The operand of a
branch is the distance from the next instruction. -/
def Opcode.operands (w : Width) (o : Opcode) : Reading Instr :=
  match o with
  | aluStore op wide => do
    let (r, rm) ← Reading.modRM (w.ofWide wide)
    return ⟨.alu op, w.ofWide wide, [.reg ⟨w.ofWide wide, r⟩, rm]⟩
  | aluLoad op wide => do
    let (r, rm) ← Reading.modRM (w.ofWide wide)
    return ⟨.alu op, w.ofWide wide, [rm, .reg ⟨w.ofWide wide, r⟩]⟩
  | aluAcc op wide => do
    let n ← Reading.imm (w.ofWide wide)
    return ⟨.alu op, w.ofWide wide, [n, .reg ⟨w.ofWide wide, 0⟩]⟩
  | aluImm wide => do
    let (code, rm) ← Reading.modRM (w.ofWide wide)
    let n ← Reading.imm (w.ofWide wide)
    return ⟨.alu (AluOp.ofCode code), w.ofWide wide, [n, rm]⟩
  | aluImmByte => do
    let (code, rm) ← Reading.modRM w
    let n ← Reading.immByte w
    return ⟨.alu (AluOp.ofCode code), w, [n, rm]⟩
  | incReg r => return ⟨.inc, w, [.reg ⟨w, r⟩]⟩
  | decReg r => return ⟨.dec, w, [.reg ⟨w, r⟩]⟩
  | pushReg r => return ⟨.push, w, [.reg ⟨w, r⟩]⟩
  | popReg r => return ⟨.pop, w, [.reg ⟨w, r⟩]⟩
  | pushImm => do return ⟨.push, w, [← Reading.imm w]⟩
  | pushImmByte => do return ⟨.push, w, [← Reading.immByte w]⟩
  | popRM => do
    let (code, rm) ← Reading.modRM w
    if code = 0 then return ⟨.pop, w, [rm]⟩ else Reading.refuse
  | jccByte c => do return ⟨.jcc c, .long, [.imm (← Reading.distance .byte)]⟩
  | jcc c => do return ⟨.jcc c, .long, [.imm (← Reading.distance .long)]⟩
  | jmpByte => do return ⟨.jmp, .long, [.imm (← Reading.distance .byte)]⟩
  | jmp => do return ⟨.jmp, .long, [.imm (← Reading.distance .long)]⟩
  | call => do return ⟨.call, .long, [.imm (← Reading.distance .long)]⟩
  | testStore wide => do
    let (r, rm) ← Reading.modRM (w.ofWide wide)
    return ⟨.test, w.ofWide wide, [.reg ⟨w.ofWide wide, r⟩, rm]⟩
  | testAcc wide => do
    let n ← Reading.imm (w.ofWide wide)
    return ⟨.test, w.ofWide wide, [n, .reg ⟨w.ofWide wide, 0⟩]⟩
  | movStore wide => do
    let (r, rm) ← Reading.modRM (w.ofWide wide)
    return ⟨.mov, w.ofWide wide, [.reg ⟨w.ofWide wide, r⟩, rm]⟩
  | movLoad wide => do
    let (r, rm) ← Reading.modRM (w.ofWide wide)
    return ⟨.mov, w.ofWide wide, [rm, .reg ⟨w.ofWide wide, r⟩]⟩
  | movReg wide r => do
    let n ← Reading.imm (w.ofWide wide)
    return ⟨.mov, w.ofWide wide, [n, .reg ⟨w.ofWide wide, r⟩]⟩
  | movImm wide => do
    let (code, rm) ← Reading.modRM (w.ofWide wide)
    if code = 0 then return ⟨.mov, w.ofWide wide, [← Reading.imm (w.ofWide wide), rm]⟩
    else Reading.refuse
  | lea => do
    match ← Reading.modRM w with
    | (r, .mem m) => return ⟨.lea, w, [.mem m, .reg ⟨w, r⟩]⟩
    | _ => Reading.refuse
  | shiftImm wide => do
    let (code, rm) ← Reading.modRM (w.ofWide wide)
    let n ← Reading.imm .byte
    return ⟨.shift (ShiftOp.ofCode code), w.ofWide wide, [n, rm]⟩
  | shiftOne wide => do
    let (code, rm) ← Reading.modRM (w.ofWide wide)
    return ⟨.shift (ShiftOp.ofCode code), w.ofWide wide, [.imm 1, rm]⟩
  | shiftCl wide => do
    let (code, rm) ← Reading.modRM (w.ofWide wide)
    return ⟨.shift (ShiftOp.ofCode code), w.ofWide wide, [.reg .cl, rm]⟩
  | groupThree wide => do
    let (code, rm) ← Reading.modRM (w.ofWide wide)
    if code = 0 then return ⟨.test, w.ofWide wide, [← Reading.imm (w.ofWide wide), rm]⟩
    let op ← Reading.ofOption (UnaryOp.ofCode? code)
    return ⟨.unary op, w.ofWide wide, [rm]⟩
  | groupFive wide => do
    let (code, rm) ← Reading.modRM (w.ofWide wide)
    if code = 0 then return ⟨.inc, w.ofWide wide, [rm]⟩
    else if code = 1 then return ⟨.dec, w.ofWide wide, [rm]⟩
    else if code = 6 ∧ wide then return ⟨.push, w, [rm]⟩
    else Reading.refuse
  | plain op => return ⟨.plain op, w, []⟩

namespace Reading

/-- The opcode whose first byte is given. -/
def opcode (first : Byte) : Reading Opcode :=
  if first = Opcode.escape then do
    let second ← byte
    ofOption (Opcode.ofBytes? [first, second])
  else ofOption (Opcode.ofBytes? [first])

/-- An instruction, its branches still relative. -/
def instr : Reading Instr := do
  let first ← byte
  if first = wordMark then
    let opcode ← opcode (← byte)
    opcode.operands .word
  else
    let opcode ← opcode first
    opcode.operands .long

end Reading

/-! ## Decoders that follow readings -/

namespace Reading

variable {α β : Type}

theorem runFrom_bind_truncated {r : Reading α} {pos : Nat} {bs : List Byte}
    (h : r.runFrom pos bs = .truncated) (f : α → Reading β) :
    (r >>= f).runFrom pos bs = .truncated := by
  induction r generalizing pos bs with
  | done a => cases h
  | refuse => cases h
  | next k ih =>
    cases bs with
    | nil => rfl
    | cons b bs => exact ih b h

theorem runFrom_bind_refused {r : Reading α} {pos n : Nat} {bs : List Byte}
    (h : r.runFrom pos bs = .refused n) (f : α → Reading β) :
    (r >>= f).runFrom pos bs = .refused n := by
  induction r generalizing pos bs with
  | done a => cases h
  | refuse =>
    cases h
    rfl
  | next k ih =>
    cases bs with
    | nil => cases h
    | cons b bs => exact ih b h

theorem runFrom_bind_done {r : Reading α} {pos n : Nat} {bs : List Byte} {a : α}
    (h : r.runFrom pos (bs.drop pos) = .done a n) (f : α → Reading β) :
    (r >>= f).runFrom pos (bs.drop pos) = (f a).runFrom n (bs.drop n) := by
  obtain ⟨cs, rest, hbs, hr, rfl⟩ := reads_of_runFrom h
  have hrest : bs.drop (pos + cs.length) = rest := by
    rw [← List.drop_drop, hbs, List.drop_left]
  rw [hbs, hr.runFrom_bind, hrest]

theorem runFrom_bytes_of_le {n : Nat} {bs : List Byte} (h : n ≤ bs.length) (pos : Nat) :
    (bytes n).runFrom pos bs = .done (bs.take n) (pos + n) := by
  have hlen := List.length_take_of_le h
  have hr : (bytes n).Reads (bs.take n) (bs.take n) := reads_bytes.mpr ⟨rfl, hlen⟩
  have hrun := hr.runFrom pos (bs.drop n)
  rwa [List.take_append_drop, hlen] at hrun

theorem runFrom_bytes_of_lt {n : Nat} {bs : List Byte} (h : bs.length < n) (pos : Nat) :
    (bytes n).runFrom pos bs = .truncated := by
  induction n generalizing pos bs with
  | zero => exact absurd h (Nat.not_lt_zero _)
  | succ n ih =>
    cases bs with
    | nil => rfl
    | cons b bs => exact runFrom_bind_truncated (ih (Nat.lt_of_succ_lt_succ h) _) _

end Reading

namespace Decoder

variable {α β : Type}

/-- **A decoder follows a reading**: from wherever it is in a string, it gives what the reading
gives, and stops where that stops. -/
def Follows (d : Decoder α) (r : Reading α) : Prop := ∀ bs pos,
  match r.runFrom pos (bs.drop pos) with
  | .done a n => d ⟨bs, pos⟩ = .ok a ⟨bs, n⟩
  | .refused n => d ⟨bs, pos⟩ = .error .unsupported ⟨bs, n⟩
  | .truncated => ∃ r, d ⟨bs, pos⟩ = .error .truncated r

theorem Follows.pure (a : α) : (Pure.pure a : Decoder α).Follows (Pure.pure a) := fun _ _ => rfl

theorem Follows.refuse : (throw .unsupported : Decoder α).Follows .refuse := fun _ _ => rfl

theorem Follows.bind {d : Decoder α} {r : Reading α} {f : α → Decoder β} {g : α → Reading β}
    (hd : d.Follows r) (hf : ∀ a, (f a).Follows (g a)) : (d >>= f).Follows (r >>= g) := by
  intro bs pos
  have hok : ∀ a s, d ⟨bs, pos⟩ = .ok a s → (d >>= f) ⟨bs, pos⟩ = f a s :=
    fun a s h => by simp only [Bind.bind, EStateM.bind, h]
  have herror : ∀ e s, d ⟨bs, pos⟩ = .error e s → (d >>= f) ⟨bs, pos⟩ = .error e s :=
    fun e s h => by simp only [Bind.bind, EStateM.bind, h]
  have h := hd bs pos
  cases ho : r.runFrom pos (bs.drop pos) with
  | done a n =>
    rw [ho] at h
    rw [Reading.runFrom_bind_done ho, hok a _ h]
    exact hf a bs n
  | refused n =>
    rw [ho] at h
    rw [Reading.runFrom_bind_refused ho]
    exact herror _ _ h
  | truncated =>
    rw [ho] at h
    obtain ⟨s, h⟩ := h
    rw [Reading.runFrom_bind_truncated ho]
    exact ⟨s, herror _ s h⟩

/-- Bytes that a reading takes are taken wherever they stand. -/
theorem Follows.take {d : Decoder α} {r : Reading α} {a : α} {bs : List Byte} (hd : d.Follows r)
    (h : r.Reads bs a) (pre rest : List Byte) :
    d ⟨pre ++ (bs ++ rest), pre.length⟩ =
      .ok a ⟨pre ++ (bs ++ rest), pre.length + bs.length⟩ := by
  have hd := hd (pre ++ (bs ++ rest)) pre.length
  rwa [List.drop_left, h.runFrom] at hd

theorem get_bind (f : Reader → Decoder α) (r : Reader) : (get >>= f) r = f r r := rfl

theorem byte_follows : byte.Follows .byte := by
  intro bs pos
  cases ho : bs[pos]? with
  | none =>
    have hrun : byte ⟨bs, pos⟩ = .error .truncated ⟨bs, pos⟩ := by
      rw [byte, get_bind, ho]
      rfl
    rw [List.drop_eq_nil_of_le (List.getElem?_eq_none_iff.mp ho)]
    exact ⟨_, hrun⟩
  | some b =>
    have hrun : byte ⟨bs, pos⟩ = .ok b ⟨bs, pos + 1⟩ := by
      rw [byte, get_bind, ho]
      rfl
    obtain ⟨hlt, rfl⟩ := List.getElem?_eq_some_iff.mp ho
    rw [List.drop_eq_getElem_cons hlt]
    exact hrun

/-- **A value** is taken whole exactly if a reading finds all of its bytes, one by one. -/
theorem value_follows (w : Width) : (value w).Follows (.value w) := by
  intro bs pos
  rw [Reading.value_eq]
  by_cases h : w.bytes ≤ (bs.drop pos).length
  · have hrun : value w ⟨bs, pos⟩ =
        .ok (ofLittleEndian ((bs.drop pos).take w.bytes)) ⟨bs, pos + w.bytes⟩ := by
      rw [value, get_bind, Width.readBytes, if_pos h]
      rfl
    rw [Reading.runFrom_bind_done (Reading.runFrom_bytes_of_le h pos)]
    exact hrun
  · have hrun : value w ⟨bs, pos⟩ = .error .truncated ⟨bs, pos⟩ := by
      rw [value, get_bind, Width.readBytes, if_neg h]
      rfl
    rw [Reading.runFrom_bind_truncated (Reading.runFrom_bytes_of_lt (Nat.lt_of_not_le h) pos)]
    exact ⟨_, hrun⟩

/-! ## Operands -/

theorem imm_follows (w : Width) : (imm w).Follows (.imm w) :=
  (value_follows w).bind fun _ => .pure _

theorem immByte_follows (w : Width) : (immByte w).Follows (.immByte w) :=
  (value_follows .byte).bind fun _ => .pure _

theorem distance_follows (w : Width) : (distance w).Follows (.distance w) :=
  (value_follows w).bind fun _ => .pure _

theorem address_hasIndex (mode : BitVec 2) : address mode ModRM.hasIndex = byte >>= fun b =>
    let ref := Reading.indexed mode (.ofByte b)
    pure (ref, ref.base.isNone) := by
  refine congrArg (byte >>= ·) (funext fun b => ?_)
  dsimp only
  by_cases hnone : mode = ModRM.indirect ∧ (Fields.ofByte b).low = ModRM.noBase
  · have hbool : (mode == ModRM.indirect && (Fields.ofByte b).low == ModRM.noBase) = true := by
      simpa using hnone
    simp only [Reading.indexed, Reg.ofCode_eq, hbool, if_pos hnone, if_true]
    split <;> rfl
  · have hbool : (mode == ModRM.indirect && (Fields.ofByte b).low == ModRM.noBase) = false := by
      simpa using hnone
    simp only [Reading.indexed, Reg.ofCode_eq, hbool, if_neg hnone, if_false, Bool.false_eq_true]
    split <;> rfl

theorem address_follows {f : MemRef × Bool → Decoder β} {g : MemRef → Reading β}
    (h : ∀ m, (f (m, m.base.isNone)).Follows (g m)) (mode : BitVec 2) (low : BitVec 3) :
    (address mode low >>= f).Follows (.address mode low >>= g) := by
  by_cases hindex : low = ModRM.hasIndex
  · rw [hindex, address_hasIndex, Reading.address_hasIndex, bind_assoc]
    exact byte_follows.bind fun b => h (Reading.indexed mode (.ofByte b))
  · unfold address Reading.address
    rw [if_neg hindex, if_neg hindex, Reg.ofCode_eq]
    split_ifs
    · exact h {}
    · exact h { base := some ⟨.long, low⟩ }

theorem offset_follows (mode : BitVec 2) (base : Option Reg) :
    (offset mode base.isNone).Follows (.offset mode base.isSome) := by
  unfold offset Reading.offset
  by_cases hbyte : mode = ModRM.offsetByte
  · rw [if_pos hbyte, if_pos hbyte]
    exact distance_follows .byte
  rw [if_neg hbyte, if_neg hbyte]
  by_cases hlong : mode = ModRM.offsetLong
  · rw [if_pos hlong, if_pos hlong]
    exact distance_follows .long
  rw [if_neg hlong, if_neg hlong]
  cases base with
  | none => exact (value_follows .long).bind fun _ => .pure _
  | some r => exact .pure _

theorem modRM_follows (w : Width) : (modRM w).Follows (.modRM w) := by
  unfold modRM Reading.modRM
  refine byte_follows.bind fun b => ?_
  dsimp only
  rw [Reg.ofCode_eq]
  split_ifs
  · exact .pure _
  · exact address_follows (fun m => (offset_follows _ m.base).bind fun _ => .pure _) _ _

end Decoder

/-! ## Opcodes -/

namespace Opcode

/-- The choices of the decoder by the first byte. -/
def ofByte? (b : Byte) : Option Opcode :=
  let wide := b.getLsbD 0
  let low := b.setWidth 3
  if b ≤ 0x3F ∧ low < (6 : BitVec 3) then
    let op := AluOp.ofCode (b.extractLsb' 3 3)
    some
      (if low ≤ (1 : BitVec 3) then aluStore op wide
      else if low ≤ (3 : BitVec 3) then aluLoad op wide
      else aluAcc op wide)
  else if b = escape then none
  else if 0x40 ≤ b ∧ b ≤ 0x47 then some (incReg low)
  else if 0x48 ≤ b ∧ b ≤ 0x4F then some (decReg low)
  else if 0x50 ≤ b ∧ b ≤ 0x57 then some (pushReg low)
  else if 0x58 ≤ b ∧ b ≤ 0x5F then some (popReg low)
  else if b = 0x68 then some pushImm
  else if b = 0x6A then some pushImmByte
  else if 0x70 ≤ b ∧ b ≤ 0x7F then some (jccByte (Cond.ofCode (b.setWidth 4)))
  else if b = 0x80 ∨ b = 0x81 ∨ b = 0x83 then
    some (if b = 0x83 then aluImmByte else aluImm wide)
  else if b = 0x84 ∨ b = 0x85 then some (testStore wide)
  else if b = 0x88 ∨ b = 0x89 then some (movStore wide)
  else if b = 0x8A ∨ b = 0x8B then some (movLoad wide)
  else if b = 0x8D then some lea
  else if b = 0x8F then some popRM
  else if b = 0xA8 ∨ b = 0xA9 then some (testAcc wide)
  else if 0xB0 ≤ b ∧ b ≤ 0xB7 then some (movReg false low)
  else if 0xB8 ≤ b ∧ b ≤ 0xBF then some (movReg true low)
  else if b = 0xC0 ∨ b = 0xC1 ∨ 0xD0 ≤ b ∧ b ≤ 0xD3 then
    some
      (if b = 0xC0 ∨ b = 0xC1 then shiftImm wide
      else if b = 0xD0 ∨ b = 0xD1 then shiftOne wide
      else shiftCl wide)
  else if b = 0xC6 ∨ b = 0xC7 then some (movImm wide)
  else if b = 0xE8 then some call
  else if b = 0xE9 then some jmp
  else if b = 0xEB then some jmpByte
  else if b = 0xF6 ∨ b = 0xF7 then some (groupThree wide)
  else if b = 0xFE ∨ b = 0xFF then some (groupFive wide)
  else (PlainOp.ofOpcode? b).map plain

/-- The choices of the decoder by the byte behind the escape. -/
def ofSecond? (b : Byte) : Option Opcode :=
  if 0x80 ≤ b ∧ b ≤ 0x8F then some (jcc (Cond.ofCode (b.setWidth 4))) else none

/-- A choice by the last byte is that of the table of opcodes, if what is chosen ends in that byte
and all that ends in it is chosen. -/
theorem ofBytes?_eq {f : Byte → Option Opcode} {before : List Byte}
    (hsound : ∀ b, (f b).all (fun o => o.bytes == before ++ [b]) = true)
    (hcomplete : ∀ o ∈ all, o.bytes.dropLast = before → f (o.bytes.getLastD 0) = some o)
    (b : Byte) : ofBytes? (before ++ [b]) = f b := by
  ext o
  rw [ofBytes?_eq_some_iff]
  constructor
  · intro h
    have ho := hcomplete o o.mem_all
    rwa [h, List.dropLast_concat, List.getLastD_concat, imp_iff_right rfl] at ho
  · intro h
    have hb := hsound b
    rw [h] at hb
    exact beq_iff_eq.mp hb

theorem ofByte?_sound : ∀ b, (ofByte? b).all (fun o => o.bytes == [] ++ [b]) = true := by
  decide +kernel

theorem ofByte?_complete :
    ∀ o ∈ all, o.bytes.dropLast = [] → ofByte? (o.bytes.getLastD 0) = some o := by
  decide +kernel

/-- **The choices of the decoder** are those of the table of opcodes. -/
theorem ofBytes?_singleton : ∀ b, ofBytes? [b] = ofByte? b :=
  ofBytes?_eq ofByte?_sound ofByte?_complete

theorem ofSecond?_sound : ∀ b, (ofSecond? b).all (fun o => o.bytes == [escape] ++ [b]) = true := by
  decide +kernel

theorem ofSecond?_complete :
    ∀ o ∈ all, o.bytes.dropLast = [escape] → ofSecond? (o.bytes.getLastD 0) = some o := by
  decide +kernel

theorem ofBytes?_escape : ∀ b, ofBytes? [escape, b] = ofSecond? b :=
  ofBytes?_eq ofSecond?_sound ofSecond?_complete

end Opcode

namespace Decoder

theorem escaped_follows (w : Width) : escaped.Follows
    (.byte >>= fun b => .ofOption (Opcode.ofBytes? [Opcode.escape, b]) >>= Opcode.operands w) := by
  refine byte_follows.bind fun b => ?_
  rw [Opcode.ofBytes?_escape]
  unfold Opcode.ofSecond?
  split
  · exact (distance_follows .long).bind fun _ => .pure _
  · exact .refuse

theorem classic_follows (b : Byte) (w : Width) :
    let op := AluOp.ofCode (b.extractLsb' 3 3)
    let wide := b.getLsbD 0
    (classic b w).Follows (Opcode.operands w
      (if b.setWidth 3 ≤ (1 : BitVec 3) then .aluStore op wide
      else if b.setWidth 3 ≤ (3 : BitVec 3) then .aluLoad op wide
      else .aluAcc op wide)) := by
  unfold classic
  simp only [Reg.ofCode_eq]
  split_ifs
  · exact (modRM_follows _).bind fun _ => .pure _
  · exact (modRM_follows _).bind fun _ => .pure _
  · exact (imm_follows _).bind fun _ => .pure _

theorem immediate_follows (b : Byte) (w : Width) (h : b = 0x80 ∨ b = 0x81 ∨ b = 0x83) :
    (immediate b w).Follows
      (Opcode.operands w (if b = 0x83 then .aluImmByte else .aluImm (b.getLsbD 0))) := by
  unfold immediate
  rcases h with rfl | rfl | rfl
  · exact (modRM_follows _).bind fun _ => (imm_follows _).bind fun _ => .pure _
  · exact (modRM_follows _).bind fun _ => (imm_follows _).bind fun _ => .pure _
  · exact (modRM_follows _).bind fun _ => (immByte_follows _).bind fun _ => .pure _

theorem shift_follows (b : Byte) (w : Width) :
    (shift b w).Follows (Opcode.operands w
      (if b = 0xC0 ∨ b = 0xC1 then .shiftImm (b.getLsbD 0)
      else if b = 0xD0 ∨ b = 0xD1 then .shiftOne (b.getLsbD 0)
      else .shiftCl (b.getLsbD 0))) := by
  unfold shift
  split_ifs
  · exact (modRM_follows _).bind fun _ => (imm_follows _).bind fun _ => .pure _
  · exact (modRM_follows _).bind fun _ => .pure _
  · exact (modRM_follows _).bind fun _ => .pure _

theorem groupFive_follows (b : Byte) (w : Width) (h : b = 0xFE ∨ b = 0xFF) :
    Follows
      (do
        let (code, rm) ← modRM (sizeOf b w)
        if code = 0 then return ⟨.inc, sizeOf b w, [rm]⟩
        else if code = 1 then return ⟨.dec, sizeOf b w, [rm]⟩
        else if code = 6 ∧ b = 0xFF then return ⟨.push, sizeOf b w, [rm]⟩
        else throw .unsupported)
      (Opcode.operands w (.groupFive (b.getLsbD 0))) := by
  refine (modRM_follows _).bind fun p => ?_
  have hwide : (p.1 = 6 ∧ b = 0xFF) ↔ (p.1 = 6 ∧ b.getLsbD 0 = true) := by
    rcases h with rfl | rfl <;> simp
  dsimp only
  simp only [hwide]
  split_ifs with h0 h1 h6
  · exact .pure _
  · exact .pure _
  · rw [sizeOf, if_pos h6.2]
    exact .pure _
  · exact .refuse

theorem Follows.choice {c : Prop} [Decidable c] {d d' : Decoder Instr} {o o' : Option Opcode}
    {w : Width} (h : c → d.Follows (.ofOption o >>= Opcode.operands w))
    (h' : d'.Follows (.ofOption o' >>= Opcode.operands w)) :
    (if c then d else d').Follows (.ofOption (if c then o else o') >>= Opcode.operands w) := by
  by_cases hc : c
  · rw [if_pos hc, if_pos hc]
    exact h hc
  · rw [if_neg hc, if_neg hc]
    exact h'

theorem body_follows (b : Byte) (w : Width) :
    (body b w).Follows (.opcode b >>= Opcode.operands w) := by
  unfold Reading.opcode
  by_cases hescape : b = Opcode.escape
  · subst hescape
    exact escaped_follows w
  rw [if_neg hescape, Opcode.ofBytes?_singleton]
  unfold body Opcode.ofByte? register store
  simp only [Reg.ofCode_eq]
  refine .choice (fun _ => classic_follows b w) ?_
  refine .choice (fun h => absurd h hescape) ?_
  refine .choice (fun _ => .pure _) ?_
  refine .choice (fun _ => .pure _) ?_
  refine .choice (fun _ => .pure _) ?_
  refine .choice (fun _ => .pure _) ?_
  refine .choice (fun _ => (imm_follows w).bind fun _ => .pure _) ?_
  refine .choice (fun _ => (immByte_follows w).bind fun _ => .pure _) ?_
  refine .choice (fun _ => (distance_follows .byte).bind fun _ => .pure _) ?_
  refine .choice (fun h => immediate_follows b w h) ?_
  refine .choice (fun _ => (modRM_follows _).bind fun _ => .pure _) ?_
  refine .choice (fun _ => (modRM_follows _).bind fun _ => .pure _) ?_
  refine .choice (fun _ => (modRM_follows _).bind fun _ => .pure _) ?_
  refine .choice (fun _ => (modRM_follows w).bind ?_) ?_
  · rintro ⟨r, op⟩
    cases op with
    | mem ref => exact .pure _
    | reg s | imm n | label name => exact .refuse
  refine .choice (fun _ => (modRM_follows w).bind fun p => ?_) ?_
  · dsimp only
    split
    · exact .pure _
    · exact .refuse
  refine .choice (fun _ => (imm_follows _).bind fun _ => .pure _) ?_
  refine .choice (fun _ => (imm_follows .byte).bind fun _ => .pure _) ?_
  refine .choice (fun _ => (imm_follows w).bind fun _ => .pure _) ?_
  refine .choice (fun _ => shift_follows b w) ?_
  refine .choice (fun _ => (modRM_follows _).bind fun p => ?_) ?_
  · dsimp only
    split
    · exact (imm_follows _).bind fun _ => .pure _
    · exact .refuse
  refine .choice (fun _ => (distance_follows .long).bind fun _ => .pure _) ?_
  refine .choice (fun _ => (distance_follows .long).bind fun _ => .pure _) ?_
  refine .choice (fun _ => (distance_follows .byte).bind fun _ => .pure _) ?_
  refine .choice (fun _ => (modRM_follows _).bind fun p => ?_) ?_
  · unfold Mnemonic.ofGroupCode?
    dsimp only
    by_cases hzero : p.1 = 0
    · rw [if_pos hzero, if_pos hzero]
      exact (imm_follows _).bind fun _ => .pure _
    · rw [if_neg hzero, if_neg hzero]
      cases UnaryOp.ofCode? p.1 with
      | none => exact .refuse
      | some op => exact .pure _
  refine .choice (fun h => groupFive_follows b w h) ?_
  cases PlainOp.ofOpcode? b with
  | none => exact .refuse
  | some op => exact .pure _

/-- **Instructions are decoded as they are read**, one byte after another. -/
theorem instr_follows : instr.Follows .instr := by
  refine byte_follows.bind fun b => ?_
  split
  · exact byte_follows.bind fun b => body_follows b .word
  · exact body_follows b .long

end Decoder

/-- **Decoding is reading**: the decoder, which has the whole string at hand, gives what a reading
gives that is handed one byte after another. -/
theorem decode_eq_run (bs : List Byte) (address : Long) : decode bs address =
    match Reading.instr.run bs with
    | .done i length => .ok (some (i.place address length))
    | .truncated => .ok none
    | .refused length => .error (.undecodable (bs.take length)) := by
  have h := Decoder.instr_follows bs 0
  unfold decode
  rw [List.drop_zero] at h
  unfold Reading.run
  cases ho : Reading.instr.runFrom 0 bs with
  | done i n =>
    rw [ho] at h
    rw [h]
  | refused n =>
    rw [ho] at h
    rw [h]
  | truncated =>
    rw [ho] at h
    obtain ⟨s, h⟩ := h
    rw [h]

/-! ## Instructions by their opcodes -/

namespace Reading

variable {o : Opcode} {bs : List Byte} {i : Instr}

theorem reads_opcode (o : Opcode) {first : Byte} {cs : List Byte}
    (h : o.bytes = first :: cs) : (opcode first).Reads cs o := by
  rcases o.bytes_cases with ⟨b, hb, hne, -⟩ | ⟨b, hb⟩
  · obtain ⟨rfl, rfl⟩ := List.cons_eq_cons.mp (hb.symm.trans h)
    rw [opcode, if_neg hne, reads_ofOption, ← hb]
    exact ⟨rfl, o.ofBytes?_bytes⟩
  · obtain ⟨rfl, rfl⟩ := List.cons_eq_cons.mp (hb.symm.trans h)
    rw [opcode, if_pos rfl]
    have ho : (ofOption (Opcode.ofBytes? [Opcode.escape, b])).Reads [] o := by
      rw [reads_ofOption, ← hb]
      exact ⟨rfl, o.ofBytes?_bytes⟩
    exact (reads_byte.mpr rfl).bind ho

/-- **An instruction on bytes or longs** starts with its opcode. -/
theorem reads_instr_long (h : (o.operands .long).Reads bs i) : instr.Reads (o.bytes ++ bs) i := by
  rcases o.bytes_cases with ⟨b, hb, -, hne⟩ | ⟨b, hb⟩
  · rw [hb]
    refine (reads_byte.mpr rfl).bind ?_
    rw [if_neg hne]
    exact (reads_opcode o hb).bind h
  · have hrest : (do let o ← opcode Opcode.escape; o.operands .long).Reads ([b] ++ bs) i :=
      (reads_opcode o hb).bind h
    rw [hb]
    refine (reads_byte.mpr rfl).bind ?_
    rw [if_neg (by decide)]
    exact hrest

/-- **An instruction on words** has a mark in front of its opcode. -/
theorem reads_instr_word (h : (o.operands .word).Reads bs i) :
    instr.Reads (wordMark :: (o.bytes ++ bs)) i := by
  obtain ⟨first, cs, ho⟩ : ∃ first cs, o.bytes = first :: cs := by
    rcases o.bytes_cases with ⟨b, hb, -⟩ | ⟨b, hb⟩ <;> exact ⟨_, _, hb⟩
  have hmark : byte.Reads [wordMark] wordMark := reads_byte.mpr rfl
  have hfirst : byte.Reads [first] first := reads_byte.mpr rfl
  refine hmark.bind ?_
  rw [if_pos rfl, ho]
  exact hfirst.bind ((reads_opcode o ho).bind h)

theorem yields_instr {P : Instr → Prop}
    (h : ∀ (o : Opcode) (w : Width), w ≠ .byte → (o.operands w).Yields P) : instr.Yields P := by
  refine Yields.trivial.bind fun first _ => ?_
  split
  · exact Yields.trivial.bind fun b _ => Yields.trivial.bind fun o _ => h o .word (by decide)
  · exact Yields.trivial.bind fun o _ => h o .long (by decide)

end Reading

end Ia32
