import Ia32.Proofs.Decoder
import Ia32.Proofs.Failure

/-!
# Operand bytes

* `MemRef.Supported`: the addresses that have an encoding;
* `MemRef.HasForm`, `MemRef.form_ok_iff`: their forms: with an index, with `esp` as the base, and
  with any other base; **`MemRef.exists_hasForm_iff`**: the supported addresses have one;
* `ModRM.Encodes`, `ModRM.encode_ok_iff`, `ModRM.length_ok_iff`: the bytes of registers and of
  places in memory, and **an operand is as long as its bytes**;
* `Operand.canonical`, **`Reading.reads_modRM`**: the bytes of an operand, read back.
-/

set_option autoImplicit false

namespace Ia32

/-! ## Addresses -/

theorem Reg.inAddress_ok_iff {r r' : Reg} :
    r.inAddress = .ok r' ↔ r.width = .long ∧ r = r' := by
  unfold inAddress
  split <;> simp_all

theorem Reg.eta {r : Reg} {w : Width} (h : r.width = w) : (⟨w, r.code⟩ : Reg) = r := by
  rw [← h]

theorem Reg.code_ne {r s : Reg} (hr : r.width = .long) (hs : s.width = .long) (h : r ≠ s) :
    r.code ≠ s.code := fun hc => h (by rw [← Reg.eta hr, ← Reg.eta hs, hc])

namespace MemRef

/-- The addresses that have an encoding: no offset, and a long base other than `ebp`. The index,
if there is one, is not `esp`. -/
structure Supported (m : MemRef) : Prop where
  offset : m.offset = 0
  base : ∃ r, m.base = some r ∧ r.width = .long ∧ r ≠ .ebp
  index : m.index ≠ some .esp

/-- The registers of an address are long ones. -/
structure IsLong (m : MemRef) : Prop where
  base : ∀ r, m.base = some r → r.width = .long
  index : ∀ r, m.index = some r → r.width = .long

/-- The forms of addresses, with the low field and the second byte of each. -/
inductive HasForm : MemRef → BitVec 3 → Option Byte → Prop where
  | indexed {b i : Reg} (s : Scale) (hb : b.width = .long) (hbp : b ≠ .ebp)
      (hi : i.width = .long) (hsp : i ≠ .esp) :
      HasForm ⟨some b, 0, some i, s⟩ ModRM.hasIndex (some (Fields.mk s.code i.code b.code).byte)
  | stack (s : Scale) :
      HasForm ⟨some .esp, 0, none, s⟩ ModRM.hasIndex
        (some (Fields.mk Scale.one.code ModRM.noIndex Reg.esp.code).byte)
  | plain {b : Reg} (s : Scale) (hb : b.width = .long) (hbp : b ≠ .ebp) (hsp : b ≠ .esp) :
      HasForm ⟨some b, 0, none, s⟩ b.code none

theorem form_ok_iff {m : MemRef} {low : BitVec 3} {second : Option Byte} :
    m.form = .ok (low, second) ↔ m.HasForm low second := by
  constructor
  · intro h
    obtain ⟨base, offset, index, scale⟩ := m
    rcases base with _ | b
    · simp [form, throw_bind, guard_ok_iff, throw_ne_ok] at h
    rcases index with _ | i
    · simp only [form, throw_bind, guard_ok_iff, bind_ok_iff, Reg.inAddress_ok_iff, not_not] at h
      obtain ⟨rfl, _, ⟨hb, rfl⟩, hbp, h⟩ := h
      by_cases hsp : b = .esp
      · subst hsp
        rw [if_pos rfl] at h
        obtain ⟨rfl, rfl⟩ := Prod.mk.inj (pure_ok_iff.mp h)
        exact .stack scale
      · rw [if_neg hsp] at h
        obtain ⟨rfl, rfl⟩ := Prod.mk.inj (pure_ok_iff.mp h)
        exact .plain scale hb hbp hsp
    · simp only [form, throw_bind, guard_ok_iff, bind_ok_iff, Reg.inAddress_ok_iff, not_not] at h
      obtain ⟨rfl, _, ⟨hb, rfl⟩, hbp, _, ⟨hi, rfl⟩, hsp, h⟩ := h
      obtain ⟨rfl, rfl⟩ := Prod.mk.inj (pure_ok_iff.mp h)
      exact .indexed scale hb hbp hi hsp
  · intro h
    cases h <;>
      simp only [form, throw_bind, guard_ok_iff, bind_ok_iff, Reg.inAddress_ok_iff, not_not]
    case indexed s hb hbp hi hsp => exact ⟨trivial, _, ⟨hb, rfl⟩, hbp, _, ⟨hi, rfl⟩, hsp, rfl⟩
    case stack s => exact ⟨trivial, _, ⟨trivial, rfl⟩, by decide, rfl⟩
    case plain b s hb hbp hsp => exact ⟨trivial, _, ⟨hb, rfl⟩, hbp, if_neg hsp⟩

theorem exists_hasForm_iff {m : MemRef} (hm : m.IsLong) :
    (∃ low second, m.HasForm low second) ↔ m.Supported := by
  constructor
  · rintro ⟨low, second, h⟩
    cases h with
    | indexed s hb hbp hi hsp => exact ⟨rfl, ⟨_, rfl, hb, hbp⟩, fun h => hsp (Option.some.inj h)⟩
    | stack s => exact ⟨rfl, ⟨_, rfl, rfl, by decide⟩, nofun⟩
    | plain s hb hbp hsp => exact ⟨rfl, ⟨_, rfl, hb, hbp⟩, nofun⟩
  · rintro ⟨hoff, ⟨b, hbase, hb, hbp⟩, hsp⟩
    obtain ⟨base, offset, index, scale⟩ := m
    obtain rfl : offset = 0 := hoff
    obtain rfl : base = some b := hbase
    cases index with
    | some i => exact ⟨_, _, .indexed scale hb hbp (hm.index i rfl) fun h => hsp (congrArg _ h)⟩
    | none =>
      by_cases hbs : b = .esp
      · subst hbs
        exact ⟨_, _, .stack scale⟩
      · exact ⟨_, _, .plain scale hb hbp hbs⟩

theorem not_supported_iff {m : MemRef} (hm : m.IsLong) :
    ¬ m.Supported ↔ ∃ x, m.form = .error x := by
  rw [← exists_hasForm_iff hm]
  cases h : m.form with
  | ok p => exact ⟨fun hn => absurd ⟨p.1, p.2, form_ok_iff.mp h⟩ hn, nofun⟩
  | error x =>
    refine ⟨fun _ => ⟨x, rfl⟩, ?_⟩
    rintro - ⟨low, second, hform⟩
    cases h.symm.trans (form_ok_iff.mpr hform)

end MemRef

/-! ## Bytes of operands -/

namespace ModRM

/-- The bytes of an operand, with a field beside it. -/
inductive Encodes : Operand → BitVec 3 → List Byte → Prop where
  | reg (r : Reg) (field : BitVec 3) : Encodes (.reg r) field [(Fields.mk direct field r.code).byte]
  | mem {m : MemRef} {low : BitVec 3} {second : Option Byte} (h : m.HasForm low second)
      (field : BitVec 3) :
      Encodes (.mem m) field ((Fields.mk indirect field low).byte :: second.toList)

variable {op : Operand} {field : BitVec 3} {bs : List Byte}

theorem encode_ok_iff : encode op field = .ok bs ↔ Encodes op field bs := by
  constructor
  · intro h
    cases op with
    | reg r =>
      cases h
      exact .reg r field
    | mem m =>
      obtain ⟨⟨low, second⟩, hm, h⟩ := bind_ok_iff.mp h
      cases h
      exact .mem (MemRef.form_ok_iff.mp hm) field
    | imm n | label name => cases h
  · intro h
    cases h with
    | reg r => rfl
    | mem hm => exact bind_ok_iff.mpr ⟨_, MemRef.form_ok_iff.mpr hm, rfl⟩

/-- **An operand is as long as its bytes**, whatever field stands beside it. -/
theorem length_ok_iff (field : BitVec 3) {n : Nat} :
    length op = .ok n ↔ ∃ bs, Encodes op field bs ∧ bs.length = n := by
  constructor
  · intro h
    cases op with
    | reg r =>
      cases h
      exact ⟨_, .reg r field, rfl⟩
    | mem m =>
      obtain ⟨⟨low, second⟩, hm, h⟩ := bind_ok_iff.mp h
      cases h
      refine ⟨_, .mem (MemRef.form_ok_iff.mp hm) field, ?_⟩
      cases second <;> rfl
    | imm n | label name => cases h
  · rintro ⟨bs, h, rfl⟩
    cases h with
    | reg r => rfl
    | mem hm =>
      refine bind_ok_iff.mpr ⟨_, MemRef.form_ok_iff.mpr hm, ?_⟩
      rename_i second
      cases second <;> rfl

theorem Encodes.length_le (h : Encodes op field bs) : bs.length ≤ 2 := by
  cases h with
  | reg r => simp
  | @mem _ _ second => cases second <;> simp

theorem exists_encodes_iff (field : BitVec 3) (hop : op.isRM = true)
    (hlong : ∀ m, op = .mem m → m.IsLong) :
    (∃ bs, Encodes op field bs) ↔ ∀ m, op = .mem m → m.Supported := by
  cases op with
  | reg r => exact ⟨fun _ => nofun, fun _ => ⟨_, .reg r field⟩⟩
  | mem m =>
    have hm := MemRef.exists_hasForm_iff (hlong m rfl)
    constructor
    · rintro ⟨bs, h⟩ m' hm'
      cases hm'
      cases h with
      | mem h => exact hm.mp ⟨_, _, h⟩
    · intro h
      obtain ⟨low, second, h⟩ := hm.mpr (h m rfl)
      exact ⟨_, .mem h field⟩
  | imm n | label name => cases hop

end ModRM

/-! ## Operands read back -/

/-- The address that is read for an address: without an index, the scale is one. -/
def MemRef.canonical (m : MemRef) : MemRef :=
  if m.index.isNone then { m with scale := .one } else m

/-- The operand that is read for an operand of an instruction of a width. Labels stay. -/
def Operand.canonical (w : Width) : Operand → Operand
  | imm n => imm (n % 2 ^ w.bits)
  | mem m => mem m.canonical
  | op => op

namespace Reading

variable {m : MemRef} {low field : BitVec 3} {second : Option Byte} {op : Operand} {bs : List Byte}

theorem reads_address (h : m.HasForm low second) :
    (address ModRM.indirect low).Reads second.toList m.canonical := by
  cases h with
  | @indexed b i s hb hbp hi hsp =>
    have hb5 : b.code ≠ ModRM.noBase := Reg.code_ne hb rfl hbp
    have hi4 : i.code ≠ ModRM.noIndex := Reg.code_ne hi rfl hsp
    refine reads_bind.mpr ⟨_, [_], [], rfl, reads_byte.mpr rfl, ?_⟩
    simp only [Fields.ofByte_byte, hb5, hi4, and_false, if_false, reads_pure, true_and,
      Scale.ofCode_code, Reg.eta hb, Reg.eta hi]
    rfl
  | stack s =>
    refine reads_bind.mpr ⟨_, [_], [], rfl, reads_byte.mpr rfl, ?_⟩
    rw [Fields.ofByte_byte]
    exact reads_pure.mpr ⟨rfl, rfl⟩
  | @plain b s hb hbp hsp =>
    have hb4 : b.code ≠ ModRM.hasIndex := Reg.code_ne hb rfl hsp
    have hb5 : b.code ≠ ModRM.noBase := Reg.code_ne hb rfl hbp
    simp only [address, if_neg hb4, hb5, and_false, if_false, reads_pure, Reg.eta hb]
    exact ⟨rfl, rfl⟩

/-- **The bytes of an operand, read back.** -/
theorem reads_modRM {w : Width} (h : ModRM.Encodes op field bs)
    (hw : ∀ r, op = .reg r → r.width = w) : (modRM w).Reads bs (field, op.canonical w) := by
  cases h with
  | reg r =>
    obtain rfl := hw r rfl
    refine reads_bind.mpr ⟨_, [_], [], rfl, reads_byte.mpr rfl, ?_⟩
    rw [Fields.ofByte_byte]
    exact reads_pure.mpr ⟨rfl, rfl⟩
  | @mem m low second hm =>
    have hbase : m.canonical.base.isSome = true := by cases hm <;> rfl
    have hzero : { m.canonical with offset := 0 } = m.canonical := by cases hm <;> rfl
    have hoff : (offset ModRM.indirect m.canonical.base.isSome).Reads [] 0 := by
      rw [hbase]
      exact reads_pure.mpr ⟨rfl, rfl⟩
    have hmem : (pure (field, .mem { m.canonical with offset := 0 }) : Reading _).Reads []
        (field, (Operand.mem m).canonical w) := reads_pure.mpr ⟨rfl, by rw [hzero]; rfl⟩
    refine reads_bind.mpr ⟨_, [_], second.toList, rfl, reads_byte.mpr rfl, ?_⟩
    rw [Fields.ofByte_byte, if_neg (by decide : ModRM.indirect ≠ ModRM.direct)]
    exact reads_bind.mpr ⟨_, _, [], by simp, reads_address hm, hoff.bind hmem⟩

theorem reads_mem {m : MemRef} (h : ModRM.Encodes (.mem m) field bs) (w : Width) :
    (modRM w).Reads bs (field, .mem m.canonical) :=
  reads_modRM h nofun

end Reading

end Ia32
