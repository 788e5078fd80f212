import Ia32.Instr
import Ia32.Proofs.Words

/-!
# Operands read back

* `Reg.written`, `MemRef.writtenParts`: registers and addresses as they are written;
  **`MemRef.readAddress_written`**: the written form of an address, read back;
* `Operand.Writable`, `Operand.raw`: the operands whose written form can be read, and what it says;
* `Operand.Writable.piece`, `Operand.Writable.mem_text`: it can stand in a list, and its characters;
* **`readOperand_text`**: the written form of an operand, read back.
-/

set_option autoImplicit false

namespace Ia32

/-! ## Registers and numbers -/

theorem Reg.mem_all (r : Reg) : r ∈ all := by
  obtain ⟨w, c⟩ := r
  have hw : w ∈ Width.all := by cases w <;> decide
  have hc : ∀ c : BitVec 3, c ∈ codes := by decide
  exact List.mem_flatMap.mpr ⟨w, hw, List.mem_map.mpr ⟨c, hc c, rfl⟩⟩

theorem Reg.all_isName : ∀ r ∈ all, isName r.name.toList = true := by
  decide

theorem Reg.all_lowerName : ∀ r ∈ all, lowerName r.name.toList = r.name := by
  decide

theorem Reg.all_ofName? : ∀ r ∈ all, ofName? r.name = some r := by
  decide +kernel

/-- A register as it is written. -/
def Reg.written (r : Reg) : List Char := '%' :: r.name.toList

theorem Reg.word_written (r : Reg) : Word r.written := by
  intro c hc
  rcases List.mem_cons.mp hc with rfl | hc
  · decide
  · exact word_of_isName (all_isName r r.mem_all) c hc

theorem readRegister_written (r : Reg) : readRegister r.written = .ok r.name := by
  have htrim : Text.trim r.written = '%' :: r.name.toList := Text.trim_of_bare r.word_written.bare
  rw [readRegister, htrim]
  change (if isName r.name.toList then Except.ok (lowerName r.name.toList) else _) = _
  rw [if_pos (Reg.all_isName r r.mem_all), Reg.all_lowerName r r.mem_all]

/-! ## Addresses -/

/-- A register of an address as it is written, nothing if it is left out. -/
def writtenPart : Option Reg → List Char
  | none => []
  | some r => r.written

theorem word_writtenPart (r : Option Reg) : Word (writtenPart r) := by
  cases r with
  | none => exact word_nil
  | some r => exact r.word_written

theorem readPart_writtenPart (r : Option Reg) :
    readPart readRegister (some (writtenPart r)) = .ok (r.map Reg.name) := by
  cases r with
  | none => rfl
  | some r => exact congrArg (some <$> ·) (readRegister_written r)

namespace Scale

/-- The factor of a scale as it is written. -/
def written (s : Scale) : List Char := (toString s.factor).toList

theorem word_written (s : Scale) : Word s.written := by
  rw [word_iff_all]
  cases s <;> decide

theorem readPart_written (s : Scale) :
    readPart readNumber (some s.written) = .ok (some (s.factor : Int)) := by
  cases s <;> decide

end Scale

namespace MemRef

/-- The offset of an address as it is written, nothing if it is zero. -/
def writtenOffset (m : MemRef) : List Char :=
  if m.offset ≠ 0 then (Text.signedHex m.offset).toList else []

/-- The parts of an address in parentheses. The scale is written with the index only. -/
def writtenParts (m : MemRef) : List (List Char) :=
  writtenPart m.base ::
    match m.index with
    | none => []
    | some i => [i.written, m.scale.written]

variable {m : MemRef}

theorem toList_text (h : m.base.isSome = true ∨ m.index.isSome = true) : m.text.toList =
    m.writtenOffset ++ '(' :: (Text.join ',' m.writtenParts ++ [')']) := by
  obtain ⟨base, offset, index, scale⟩ := m
  have hoffset : (if offset ≠ 0 then Text.signedHex offset else "").toList =
      if offset ≠ 0 then (Text.signedHex offset).toList else [] := by
    split <;> rfl
  rcases base with _ | b <;> rcases index with _ | i
  · simp at h
  all_goals
    rw [text, writtenOffset, ← hoffset]
    simp [writtenParts, writtenPart, Reg.written, Scale.written, Text.join]

theorem word_of_mem_writtenParts {p : List Char} (hp : p ∈ m.writtenParts) : Word p := by
  rcases List.mem_cons.mp hp with rfl | hp
  · exact word_writtenPart _
  · cases hi : m.index with
    | none =>
      rw [hi] at hp
      cases hp
    | some i =>
      rw [hi] at hp
      simp only [List.mem_cons, List.not_mem_nil, or_false] at hp
      rcases hp with rfl | rfl
      · exact i.word_written
      · exact m.scale.word_written

theorem word_writtenOffset (m : MemRef) : Word m.writtenOffset := by
  unfold writtenOffset
  split
  · exact word_signedHex _
  · exact word_nil

/-- What the written form of an address says. -/
def raw (m : MemRef) : RawOperand :=
  .mem (m.base.map Reg.name) m.offset (m.index.map Reg.name) (m.index.map fun _ => m.scale.factor)

theorem writtenParts_index (m : MemRef) :
    readPart readRegister m.writtenParts[1]? = .ok (m.index.map Reg.name) := by
  unfold writtenParts
  cases m.index with
  | none => rfl
  | some i => exact readPart_writtenPart (some i)

theorem writtenParts_scale (m : MemRef) : readPart readNumber m.writtenParts[2]? =
    .ok (m.index.map fun _ => (m.scale.factor : Int)) := by
  unfold writtenParts
  cases m.index with
  | none => rfl
  | some i => exact m.scale.readPart_written

theorem length_writtenParts_le (m : MemRef) : m.writtenParts.length ≤ 3 := by
  unfold writtenParts
  cases m.index <;> simp

theorem readPart_writtenOffset (h0 : -2 ^ 63 < m.offset) (h1 : m.offset < 2 ^ 63) :
    (·.getD 0) <$> readPart readNumber (some (Text.trim m.writtenOffset)) = .ok m.offset := by
  rw [Text.trim_of_bare m.word_writtenOffset.bare, writtenOffset]
  split
  · have hread := readNumber_signedHex h0 h1
    rcases hcs : (Text.signedHex m.offset).toList with _ | ⟨c, cs⟩
    · rw [hcs] at hread
      cases hread
    · rw [hcs] at hread
      rw [readPart, hread]
      · rfl
      · exact nofun
  · next hzero =>
    rw [not_not.mp hzero]
    rfl

/-- **An address** is read as it was. -/
theorem readAddress_written (whole : List Char) (h0 : -2 ^ 63 < m.offset)
    (h1 : m.offset < 2 ^ 63) :
    readAddress whole m.writtenOffset (Text.join ',' m.writtenParts ++ [')']) = .ok m.raw := by
  have hsplit : Text.splitOn ',' (Text.join ',' m.writtenParts) = m.writtenParts :=
    Text.splitOn_join (fun p hp => (word_of_mem_writtenParts hp).not_mem (by decide))
      (List.cons_ne_nil _ _)
  have hparts : (Text.splitOn ',' (Text.join ',' m.writtenParts ++ [')']).dropLast).map Text.trim =
      m.writtenParts := by
    rw [List.dropLast_concat, hsplit]
    refine (List.map_congr_left fun p hp => ?_).trans (List.map_id _)
    exact Text.trim_of_bare (word_of_mem_writtenParts hp).bare
  have hclosed : ¬ (Text.join ',' m.writtenParts ++ [')']).getLast? ≠ some ')' := by
    rw [List.getLast?_concat]
    exact not_not.mpr rfl
  refine guard_ok_iff.mpr ⟨hclosed, bind_ok_iff.mpr ⟨_, readPart_writtenOffset h0 h1, ?_⟩⟩
  dsimp only
  rw [hparts]
  refine guard_ok_iff.mpr ⟨by have := m.length_writtenParts_le; omega, ?_⟩
  refine bind_ok_iff.mpr ⟨_, readPart_writtenPart m.base, ?_⟩
  refine bind_ok_iff.mpr ⟨_, m.writtenParts_index, ?_⟩
  exact bind_ok_iff.mpr ⟨_, m.writtenParts_scale, rfl⟩

end MemRef

/-! ## Operands -/

namespace Operand

/-- The operands whose written form can be read. An address has a base or an index, and the
digits of the least number of 64 bits are out of range. -/
inductive Writable : Operand → Prop where
  | reg (r : Reg) : Writable (reg r)
  | imm {n : Int} (h0 : -2 ^ 63 < n) (h1 : n < 2 ^ 63) : Writable (imm n)
  | mem {m : MemRef} (hparts : m.base.isSome = true ∨ m.index.isSome = true)
      (h0 : -2 ^ 63 < m.offset) (h1 : m.offset < 2 ^ 63) : Writable (mem m)
  | label {name : String} (h : isName name.toList = true) : Writable (label name)

/-- What the written form of an operand says. -/
def raw : Operand → RawOperand
  | reg r => .reg r.name
  | imm n => .imm n
  | mem m => m.raw
  | label name => .label name

theorem Writable.piece {op : Operand} (h : op.Writable) : Piece op.text.toList := by
  cases h with
  | reg r =>
    have hword : Word ("%" ++ r.name).toList := by
      rw [String.toList_append]
      exact r.word_written
    exact hword.piece (by simp)
  | @imm n h0 h1 =>
    have hword : Word ("$" ++ Text.signedHex n).toList := by
      rw [String.toList_append]
      exact Word.append (word_iff_all.mpr (by decide)) (word_signedHex n)
    exact hword.piece (by simp)
  | @mem m hparts h0 h1 =>
    have htext : (Operand.mem m).text.toList =
        m.writtenOffset ++ '(' :: (Text.join ',' m.writtenParts ++ [')']) := m.toList_text hparts
    have hinner : ∀ c, isWordChar c = false → c ≠ ',' → c ∉ Text.join ',' m.writtenParts := by
      intro c hc hcomma hmem
      rcases Text.mem_intercalate hmem with h | ⟨p, hp, hmem⟩
      · exact hcomma (List.mem_singleton.mp h)
      · exact (MemRef.word_of_mem_writtenParts hp).not_mem hc hmem
    have hsplit := splitTop_parentheses (hinner '(' (by decide) (by decide))
      (hinner ')' (by decide) (by decide))
    rw [htext]
    have hopen : Text.Bare ['('] := Text.bare_singleton (by decide)
    have hclose : Text.Bare [')'] := Text.bare_singleton (by decide)
    have hbare := hopen.between (List.cons_ne_nil _ _) hclose (List.cons_ne_nil _ _)
      (Text.join ',' m.writtenParts)
    exact ⟨splitTop_word_append m.word_writtenOffset hsplit, by simp,
      m.word_writtenOffset.bare.append hbare⟩
  | @label name h =>
    refine (word_of_isName h).piece ?_
    intro hnil
    rw [hnil] at h
    cases h

theorem Writable.mem_text {op : Operand} (h : op.Writable) {c : Char} (hc : c ∈ op.text.toList) :
    isWordChar c = true ∨ c = ',' ∨ c = '(' ∨ c = ')' := by
  cases h with
  | reg r => exact .inl (r.word_written c (by rwa [text, String.toList_append] at hc))
  | @imm n h0 h1 =>
    rw [text, String.toList_append, List.mem_append] at hc
    rcases hc with hc | hc
    · rw [List.mem_singleton.mp hc]
      exact .inl (by decide)
    · exact .inl (word_signedHex n c hc)
  | @mem m hparts h0 h1 =>
    rw [text, m.toList_text hparts] at hc
    simp only [List.mem_append, List.mem_cons, List.not_mem_nil, or_false] at hc
    rcases hc with hc | rfl | hc | rfl
    · exact .inl (m.word_writtenOffset c hc)
    · exact .inr (.inr (.inl rfl))
    · rcases Text.mem_intercalate hc with hc | ⟨p, hp, hc⟩
      · exact .inr (.inl (List.mem_singleton.mp hc))
      · exact .inl (MemRef.word_of_mem_writtenParts hp c hc)
    · exact .inr (.inr (.inr rfl))
  | @label name h => exact .inl (word_of_isName h c hc)

end Operand

theorem readOperand_address {w : List Char} (hw : '(' ∉ w)
    (hhead : ∀ c ∈ w.head?, c ≠ '%' ∧ c ≠ '$') (rest : List Char) :
    readOperand (w ++ '(' :: rest) = readAddress (w ++ '(' :: rest) w rest := by
  have hne : ∀ c ∈ w, (c != '(') = true := by
    intro c hc
    rw [bne_iff_ne]
    rintro rfl
    exact hw hc
  have hdrop : (w ++ '(' :: rest).dropWhile (· != '(') = '(' :: rest := by
    rw [List.dropWhile_append_of_pos hne]
    rfl
  have htake : (w ++ '(' :: rest).takeWhile (· != '(') = w := by
    rw [List.takeWhile_append_of_pos hne]
    exact List.append_nil w
  have hfirst : ∀ c ds, w ++ '(' :: rest = c :: ds → c ≠ '%' ∧ c ≠ '$' := by
    intro c ds h
    rcases w with _ | ⟨d, ds⟩
    · obtain ⟨rfl, -⟩ := List.cons_eq_cons.mp h
      decide
    · obtain ⟨rfl, -⟩ := List.cons_eq_cons.mp h
      exact hhead d rfl
  unfold readOperand
  split
  · next heq => exact absurd rfl (hfirst _ _ heq).1
  · next heq => exact absurd rfl (hfirst _ _ heq).2
  · rw [hdrop, htake]

theorem readOperand_label {cs : List Char} (h : isName cs = true) :
    readOperand cs = .ok (.label (String.ofList cs)) := by
  have hne : ∀ c ∈ cs, (c != '(') = true := by
    intro c hc
    rw [bne_iff_ne]
    rintro rfl
    exact (word_of_isName h).not_mem (by decide) hc
  have hdrop : (cs ++ []).dropWhile (· != '(') = [] := List.dropWhile_append_of_pos hne
  rw [List.append_nil] at hdrop
  rcases cs with _ | ⟨c, cs⟩
  · cases h
  have hstart : isNameStart c = true := (Bool.and_eq_true_iff.mp h).1
  have hother : ∀ d, isNameStart d = false → c ≠ d := by
    rintro d hd rfl
    rw [hstart] at hd
    cases hd
  have hdigit : ((c :: cs).head?.any fun c => c.isDigit || c == '-') = false := by
    change (c.isDigit || c == '-') = false
    rw [isDigit_of_isNameStart hstart, Bool.false_or, beq_eq_false_iff_ne]
    exact hother '-' (by decide)
  unfold readOperand
  split
  · next heq => exact absurd (List.cons_eq_cons.mp heq).1 (hother '%' (by decide))
  · next heq => exact absurd (List.cons_eq_cons.mp heq).1 (hother '$' (by decide))
  · rw [hdrop]
    dsimp only
    rw [hdigit, if_neg Bool.false_ne_true, if_pos h]

theorem head_signedHex (n : Int) :
    (Text.signedHex n).toList.head? = some (if n < 0 then '-' else '0') := by
  rw [Text.signedHex, String.toList_append]
  split <;> rfl

/-- **The written form of an operand** is read as it was. -/
theorem readOperand_text {op : Operand} (h : op.Writable) :
    readOperand op.text.toList = .ok op.raw := by
  cases h with
  | reg r =>
    have htext : (Operand.reg r).text.toList = '%' :: r.name.toList := String.toList_append
    have hread : readRegister ('%' :: r.name.toList) = .ok r.name := readRegister_written r
    rw [htext, readOperand, hread]
    rfl
  | @imm n h0 h1 =>
    have htext : (Operand.imm n).text.toList = '$' :: (Text.signedHex n).toList :=
      String.toList_append
    rw [htext, readOperand, Text.trim_of_bare (word_signedHex n).bare, readNumber_signedHex h0 h1]
    rfl
  | @mem m hparts h0 h1 =>
    have htext : (Operand.mem m).text.toList =
        m.writtenOffset ++ '(' :: (Text.join ',' m.writtenParts ++ [')']) := m.toList_text hparts
    have hhead : ∀ c ∈ m.writtenOffset.head?, c ≠ '%' ∧ c ≠ '$' := by
      intro c hc
      unfold MemRef.writtenOffset at hc
      split at hc
      · rw [head_signedHex] at hc
        obtain rfl := Option.some.inj hc
        split <;> decide
      · cases hc
    rw [htext, readOperand_address (m.word_writtenOffset.not_mem (by decide)) hhead,
      MemRef.readAddress_written _ h0 h1]
    rfl
  | @label name h =>
    have hread := readOperand_label h
    rw [String.ofList_toList] at hread
    exact hread

end Ia32
