import Ia32.Proofs.Decoded

/-!
# How long instructions are

* `Reading.Spans`: what holds of the results of a reading and the numbers of bytes that they take,
  and of the numbers of bytes that are refused; `Spans.bind`: one part at a time;
* `Reading.spans_modRM`, `Opcode.spans_operands`: an operand, and what follows an opcode;
* **`Reading.spans_instr`**: an instruction takes ten bytes at most, but for those that put a long
  constant into memory, which can take eleven.
-/

set_option autoImplicit false

namespace Ia32

namespace Reading

variable {α β : Type} {P : α → Nat → Prop} {Q : β → Nat → Prop} {N : Nat → Prop}

/-! ## Numbers of bytes -/

/-- Every result of a reading has a property together with the number of bytes that it takes, and
every number of bytes that are refused has one, too. -/
structure Spans (r : Reading α) (P : α → Nat → Prop) (N : Nat → Prop) : Prop where
  reads : ∀ bs a, r.Reads bs a → P a bs.length
  refuses : ∀ bs, r.Refuses bs → N bs.length

theorem Spans.pure {a : α} (h : P a 0) : (Pure.pure a : Reading α).Spans P N := by
  refine ⟨fun bs b hb => ?_, fun bs hb => absurd hb not_refuses_pure⟩
  obtain ⟨rfl, rfl⟩ := reads_pure.mp hb
  exact h

theorem Spans.refuse (h : N 0) : (Reading.refuse : Reading α).Spans P N := by
  refine ⟨fun _ _ hb => absurd hb not_reads_refuse, fun bs hb => ?_⟩
  rw [refuses_refuse hb]
  exact h

theorem Spans.bind {r : Reading α} {f : α → Reading β} (hr : r.Spans P N)
    (hf : ∀ a k, P a k → (f a).Spans (fun b j => Q b (k + j)) fun j => N (k + j)) :
    (r >>= f).Spans Q N := by
  constructor
  · intro bs b hb
    obtain ⟨a, cs, ds, rfl, ha, hb⟩ := reads_bind.mp hb
    rw [List.length_append]
    exact (hf a _ (hr.reads cs a ha)).reads ds b hb
  · intro bs hb
    rcases refuses_bind hb with hb | ⟨a, cs, ds, rfl, ha, hb⟩
    · exact hr.refuses bs hb
    · rw [List.length_append]
      exact (hf a _ (hr.reads cs a ha)).refuses ds hb

theorem Spans.mono {r : Reading α} {P' : α → Nat → Prop} {N' : Nat → Prop} (hr : r.Spans P N)
    (hP : ∀ a k, P a k → P' a k) (hN : ∀ k, N k → N' k) : r.Spans P' N' :=
  ⟨fun bs a h => hP a _ (hr.reads bs a h), fun bs h => hN _ (hr.refuses bs h)⟩

theorem Spans.ofOption {o : Option α} (h : N 0) :
    (Reading.ofOption o).Spans (fun a k => o = some a ∧ k = 0) N := by
  cases o with
  | none => exact .refuse h
  | some a => exact .pure ⟨rfl, rfl⟩

/-! ## Values -/

theorem spans_byte : byte.Spans (fun _ k => k = 1) N := by
  refine ⟨fun bs b hb => ?_, fun bs hb => ?_⟩
  · rw [reads_byte.mp hb]
    rfl
  · cases hb with
    | next h => exact absurd h not_refuses_pure

theorem spans_bytes (n : Nat) : (bytes n).Spans (fun _ k => k = n) N := by
  induction n generalizing N with
  | zero => exact .pure rfl
  | succ n ih =>
    refine spans_byte.bind fun b k hk => ih.bind fun bs j hj => .pure ?_
    omega

theorem spans_value (w : Width) : (value w).Spans (fun _ k => k = w.bytes) N :=
  (spans_bytes w.bytes).bind fun _ _ hk => .pure hk

theorem spans_imm (w : Width) :
    (imm w).Spans (fun op k => (∃ n, op = .imm n) ∧ k = w.bytes) N :=
  (spans_value w).bind fun _ _ hk => .pure ⟨⟨_, rfl⟩, hk⟩

theorem spans_immByte (w : Width) : (immByte w).Spans (fun _ k => k = 1) N :=
  (spans_value .byte).bind fun _ _ hk => .pure hk

theorem spans_distance (w : Width) : (distance w).Spans (fun _ k => k = w.bytes) N :=
  (spans_value w).bind fun _ _ hk => .pure hk

/-! ## Operands -/

theorem spans_address (mode : BitVec 2) (low : BitVec 3) :
    (address mode low).Spans (fun _ k => k ≤ 1) N := by
  unfold address
  split
  · refine spans_byte.bind fun b k hk => ?_
    dsimp only
    split
    · exact .pure hk.le
    · exact .pure hk.le
  · split
    · exact .pure (Nat.zero_le 1)
    · exact .pure (Nat.zero_le 1)

theorem spans_offset (mode : BitVec 2) (hasBase : Bool) :
    (offset mode hasBase).Spans (fun _ k => k ≤ 4) N := by
  have hbyte : Width.byte.bytes ≤ 4 := by decide
  have hlong : Width.long.bytes ≤ 4 := by decide
  unfold offset
  split
  · exact (spans_distance .byte).mono (fun _ _ h => h.le.trans hbyte) fun _ h => h
  split
  · exact (spans_distance .long).mono (fun _ _ h => h.le.trans hlong) fun _ h => h
  split
  · exact .pure (Nat.zero_le 4)
  · exact (spans_value .long).bind fun v k hk => .pure (hk.le.trans hlong)

/-- A register takes one byte, a place in memory up to six. -/
theorem spans_modRM (w : Width) :
    (modRM w).Spans (fun p k => (∃ r, p.2 = .reg r) ∧ k = 1 ∨ (∃ m, p.2 = .mem m) ∧ k ≤ 6) N := by
  refine spans_byte.bind fun b k hk => ?_
  dsimp only
  split
  · exact .pure (.inl ⟨⟨_, rfl⟩, hk⟩)
  · refine (spans_address _ _).bind fun m j hj => (spans_offset _ _).bind fun n i hi => ?_
    exact .pure (.inr ⟨⟨_, rfl⟩, by omega⟩)

theorem spans_modRM_le (w : Width) : (modRM w).Spans (fun _ k => k ≤ 6) N := by
  refine (spans_modRM w).mono ?_ fun _ h => h
  rintro p k (⟨-, h⟩ | ⟨-, h⟩)
  · omega
  · exact h

end Reading

/-! ## Instructions -/

/-- The numbers of bytes that an instruction takes behind the mark of a word. A constant and a place
in memory can take more than eight. -/
inductive Instr.OfExtent (w : Width) (i : Instr) (k : Nat) : Prop where
  | short (h : k ≤ 8)
  | wide (hw : i.width = w) {n : Int} {m : MemRef} (hops : i.operands = [.imm n, .mem m])
      (h : k ≤ 7 + w.bytes)

theorem Instr.OfExtent.of_imm {w : Width} {wide : Bool} {src dst : Operand} {k j : Nat}
    (hdst : (∃ r, dst = .reg r) ∧ k = 1 ∨ (∃ m, dst = .mem m) ∧ k ≤ 6)
    (hsrc : (∃ n, src = .imm n) ∧ j = (w.ofWide wide).bytes) (mnemonic : Mnemonic) :
    OfExtent w ⟨mnemonic, w.ofWide wide, [src, dst]⟩ (1 + (k + j)) := by
  obtain ⟨⟨n, rfl⟩, rfl⟩ := hsrc
  have hbytes := w.bytes_le
  cases wide with
  | false =>
    have hbyte : (w.ofWide false).bytes = 1 := rfl
    exact .short (by omega)
  | true =>
    have hwide : (w.ofWide true).bytes = w.bytes := rfl
    rcases hdst with ⟨-, rfl⟩ | ⟨⟨m, rfl⟩, hk⟩
    · exact .short (by omega)
    · exact .wide rfl rfl (by omega)

namespace Opcode

private theorem one_add_le {k n : Nat} (h : k ≤ n) : 1 + k ≤ n + 1 := by
  omega

/-- **What follows an opcode** takes seven bytes at most, but for a constant and a place in
memory. -/
theorem spans_operands (o : Opcode) (w : Width) :
    (o.operands w).Spans (fun i k => i.OfExtent w (o.bytes.length + k))
      fun k => o.bytes.length + k ≤ 7 := by
  have hbytes := w.bytes_le
  cases o with
  | aluStore op wide | aluLoad op wide | testStore wide | movStore wide | movLoad wide
  | shiftOne wide | shiftCl wide =>
    exact (Reading.spans_modRM_le _).bind fun p k hk => .pure (.short (one_add_le (by omega)))
  | aluAcc op wide | testAcc wide | movReg wide r =>
    refine (Reading.spans_imm _).bind fun n k hk => .pure (.short (one_add_le ?_))
    have hwide := (w.ofWide wide).bytes_le
    omega
  | aluImm wide =>
    refine (Reading.spans_modRM _).bind fun p k hk => ?_
    exact (Reading.spans_imm _).bind fun n j hj => .pure (.of_imm hk hj _)
  | aluImmByte =>
    refine (Reading.spans_modRM_le _).bind fun p k hk => ?_
    exact (Reading.spans_immByte _).bind fun n j hj => .pure (.short (one_add_le (by omega)))
  | incReg r | decReg r | pushReg r | popReg r | plain op =>
    exact .pure (.short (one_add_le (Nat.zero_le 7)))
  | pushImm =>
    exact (Reading.spans_imm _).bind fun n k hk => .pure (.short (one_add_le (by omega)))
  | pushImmByte =>
    exact (Reading.spans_immByte _).bind fun n k hk => .pure (.short (one_add_le (by omega)))
  | popRM =>
    refine (Reading.spans_modRM_le _).bind fun p k hk => ?_
    dsimp only
    split
    · exact .pure (.short (one_add_le (by omega)))
    · exact .refuse (one_add_le hk)
  | jccByte c | jmpByte =>
    refine (Reading.spans_distance .byte).bind fun n k hk => .pure (.short (one_add_le ?_))
    have hbyte : Width.byte.bytes = 1 := rfl
    omega
  | jcc c =>
    refine (Reading.spans_distance .long).bind fun n k hk => .pure (.short ?_)
    have htwo : (jcc c).bytes.length = 2 := rfl
    have hlong : Width.long.bytes = 4 := rfl
    omega
  | jmp | call =>
    refine (Reading.spans_distance .long).bind fun n k hk => .pure (.short (one_add_le ?_))
    have hlong : Width.long.bytes = 4 := rfl
    omega
  | movImm wide =>
    refine (Reading.spans_modRM _).bind fun p k hk => ?_
    dsimp only
    split
    · exact (Reading.spans_imm _).bind fun n j hj => .pure (.of_imm hk hj _)
    · exact .refuse (one_add_le (by omega))
  | lea =>
    refine (Reading.spans_modRM_le _).bind fun p k hk => ?_
    obtain ⟨r, op⟩ := p
    cases op with
    | mem m => exact .pure (.short (one_add_le (by omega)))
    | reg r | imm n | label name => exact .refuse (one_add_le hk)
  | shiftImm wide =>
    refine (Reading.spans_modRM_le _).bind fun p k hk => ?_
    refine (Reading.spans_imm .byte).bind fun n j hj => .pure (.short (one_add_le ?_))
    have hbyte : Width.byte.bytes = 1 := rfl
    omega
  | groupThree wide =>
    refine (Reading.spans_modRM _).bind fun p k hk => ?_
    dsimp only
    split
    · exact (Reading.spans_imm _).bind fun n j hj => .pure (.of_imm hk hj _)
    · refine (Reading.Spans.ofOption (one_add_le (by omega))).bind fun op j hj => ?_
      exact .pure (.short (one_add_le (by omega)))
  | groupFive wide =>
    refine (Reading.spans_modRM_le _).bind fun p k hk => ?_
    dsimp only
    split
    · exact .pure (.short (one_add_le (by omega)))
    · split
      · exact .pure (.short (one_add_le (by omega)))
      · split
        · exact .pure (.short (one_add_le (by omega)))
        · exact .refuse (one_add_le hk)

end Opcode

namespace Reading

theorem spans_opcode (first : Byte) :
    (opcode first).Spans (fun o k => o.bytes.length = 1 + k) fun k => k ≤ 1 := by
  unfold opcode
  split
  · refine spans_byte.bind fun second k hk => ?_
    refine (Spans.ofOption hk.le).mono ?_ fun _ h => h
    rintro o j ⟨ho, rfl⟩
    rw [Opcode.ofBytes?_eq_some_iff.mp ho, hk]
    rfl
  · refine (Spans.ofOption (Nat.zero_le 1)).mono ?_ fun _ h => h
    rintro o j ⟨ho, rfl⟩
    rw [Opcode.ofBytes?_eq_some_iff.mp ho]
    rfl

/-- **An instruction takes ten bytes at most**, but for those that put a long constant into memory,
which can take eleven. -/
theorem spans_instr :
    instr.Spans (fun i k => k ≤ 10 ∨
      k = 11 ∧ i.width = .long ∧ ∃ n m, i.operands = [.imm n, .mem m]) fun k => k ≤ 8 := by
  have hword : Width.word.bytes = 2 := rfl
  have hlong : Width.long.bytes = 4 := rfl
  refine spans_byte.bind fun first k hk => ?_
  split
  · refine spans_byte.bind fun b j hj => ?_
    refine ((spans_opcode b).mono (fun _ _ h => h) ?_).bind fun o l hl => ?_
    · intro l hl
      omega
    · refine (o.spans_operands .word).mono ?_ ?_
      · rintro i n (h | ⟨hw, hops, h⟩)
        · exact .inl (by omega)
        · exact .inl (by omega)
      · intro n hn
        omega
  · refine ((spans_opcode first).mono (fun _ _ h => h) ?_).bind fun o l hl => ?_
    · intro l hl
      omega
    · refine (o.spans_operands .long).mono ?_ ?_
      · rintro i n (h | ⟨hw, hops, h⟩)
        · exact .inl (by omega)
        · rcases Nat.lt_or_eq_of_le (show k + (l + n) ≤ 11 by omega) with h | h
          · exact .inl (by omega)
          · exact .inr ⟨h, hw, _, _, hops⟩
      · intro n hn
        omega

end Reading

end Ia32
