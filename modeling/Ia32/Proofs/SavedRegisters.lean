import Ia32.Proofs.Frame

/-!
# Saved registers

* `Action.holds_of_pushAll`: values that are put on the stack lie there, the last first;
* `Action.popInto_ok`: they are taken off the stack into registers;
* `Machine.savedAt`: where a register is saved; `Machine.KeepsSaved`: a machine in which the
  registers are saved still;
* **`popa_after_pusha`**: `pusha` saves the registers, and `popa` brings them back.
-/

set_option autoImplicit false

namespace Ia32

namespace Action

open Machine

variable {w : Width} {m m' : Machine}

/-- **Values that are put on the stack** lie there, the last first. -/
theorem holds_of_pushAll {vs : List Long} {u : Unit} (h : pushAll w vs m = .ok u m') :
    m'.memory.Holds w (m'.get .esp) (vs.reverse.map (· &&& w.mask)) := by
  induction vs generalizing m with
  | nil => exact Memory.holds_nil
  | cons v vs ih =>
    obtain ⟨_, m₁, hpush, hrest⟩ := ok_bind_iff.mp h
    obtain ⟨hesp, hwithin⟩ := pushAll_within hrest
    have hfirst : m'.memory.read (m₁.get .esp) w = .ok (v &&& w.mask) := by
      rw [← read_of_push hpush]
      refine Memory.read_congr hwithin.size fun k _ => hwithin.memory _ fun hk => ?_
      have hlt := hk.2
      omega
    rw [List.reverse_cons, List.map_append, Memory.holds_append_iff, List.length_map,
      List.length_reverse, add_of_toNat_add hesp]
    exact ⟨ih hrest, Memory.holds_singleton_iff.mpr hfirst⟩

/-! ## Values taken off the stack -/

theorem get_keep (hw : w ≠ .byte) {c c' : BitVec 3} (hc' : c' ≠ Reg.esp.code) (v : Long)
    (m : Machine) : (keep w c v m).get ⟨w, c'⟩ =
      if c' = c then v &&& w.mask else m.get ⟨w, c'⟩ := by
  unfold keep
  by_cases hc : c = Reg.esp.code
  · rw [if_neg (not_not.mpr hc), if_neg (hc ▸ hc')]
  · rw [if_pos hc]
    split
    · next heq =>
      subst heq
      exact m.registers.get_set_self _ v
    · next hne => exact m.get_set_of_slot_ne (Reg.slot_ne hw hw hne) v

theorem get_esp_keep (hw : w ≠ .byte) (c : BitVec 3) (v : Long) (m : Machine) :
    (keep w c v m).get .esp = m.get .esp := by
  unfold keep
  split
  · next hc => exact m.get_set_of_slot_ne (Reg.slot_ne (by decide) hw (Ne.symm hc)) v
  · rfl

theorem popRegister_ok {c : BitVec 3} {v : Long} (h : m.memory.read (m.get .esp) w = .ok v) :
    popRegister w c m = .ok () (keep w c v (m.raised w)) :=
  ok_bind_iff.mpr ⟨v, _, pop_ok_iff.mpr ⟨h, rfl⟩, rfl⟩

/-- **Values that lie on the stack** are taken off it into registers. -/
theorem popInto_ok (hw : w ≠ .byte) {cs : List (BitVec 3)} {f : BitVec 3 → Long}
    (h : m.memory.Holds w (m.get .esp) (cs.map f)) :
    ∃ m', popInto w cs m = .ok () m' ∧
      m'.get .esp = m.get .esp + BitVec.ofNat 32 (cs.length * w.bytes) ∧
      ∀ c ≠ Reg.esp.code, m'.get ⟨w, c⟩ =
        if c ∈ cs then f c &&& w.mask else m.get ⟨w, c⟩ := by
  induction cs generalizing m with
  | nil => exact ⟨m, rfl, by simp, by simp⟩
  | cons c cs ih =>
    obtain ⟨hfirst, hrest⟩ := Memory.holds_append_iff.mp (show m.memory.Holds w (m.get .esp)
      ([f c] ++ cs.map f) from h)
    have hpop := popRegister_ok (c := c) (Memory.holds_singleton_iff.mp hfirst)
    have hesp : (keep w c (f c) (m.raised w)).get .esp = m.get .esp + BitVec.ofNat 32 w.bytes := by
      rw [get_esp_keep hw, m.get_raised]
    have hmemory : (keep w c (f c) (m.raised w)).memory = m.memory :=
      (sameFlow_popRegister (.inl ⟨_, hpop⟩)).2
    rw [List.length_singleton, Nat.one_mul, ← hesp, ← hmemory] at hrest
    obtain ⟨m', hrun, hesp', hregs⟩ := ih hrest
    refine ⟨m', ?_, ?_, fun c' hc' => ?_⟩
    · rw [popInto_cons]
      exact ok_bind_iff.mpr ⟨(), _, hpop, hrun⟩
    · rw [hesp', hesp, List.length_cons, Nat.succ_mul, Nat.add_comm, BitVec.ofNat_add,
        BitVec.add_assoc]
    · have hraised : (m.raised w).get ⟨w, c'⟩ = m.get ⟨w, c'⟩ :=
        m.get_set_of_slot_ne (Reg.slot_ne hw (by decide) hc') _
      rw [hregs c' hc', get_keep hw hc', hraised]
      by_cases hmem : c' ∈ cs
      · simp [hmem]
      · by_cases heq : c' = c
        · simp [heq]
        · simp [hmem, heq]

end Action

/-! ## Saved registers -/

namespace Machine

/-- The address at which a register is saved, after all of them have been put on the stack. -/
def savedAt (m : Machine) (w : Width) (c : BitVec 3) : Long :=
  m.get .esp + BitVec.ofNat 32 ((7 - c.toNat) * w.bytes)

/-- In the second machine the stack pointer is the same, and all registers but the stack pointer are
still saved. All else may have changed. -/
structure KeepsSaved (w : Width) (m m' : Machine) : Prop where
  esp : m'.get .esp = m.get .esp
  size : m'.memory.size = m.memory.size
  bytes : ∀ c ≠ Reg.esp.code, ∀ k < w.bytes,
    m'.memory.bytes[(m.savedAt w c).toNat + k]? = m.memory.bytes[(m.savedAt w c).toNat + k]?

theorem holds_pushOrder_iff {m : Machine} {w : Width} {f : BitVec 3 → Long} :
    m.memory.Holds w (m.get .esp) (Action.pushOrder.reverse.map f) ↔
      ∀ c, m.memory.read (m.savedAt w c) w = .ok (f c) := by
  have hplace : ∀ c : BitVec 3, Action.pushOrder.reverse[7 - c.toNat]? = some c := by decide
  have honly : ∀ k < 8, ∀ c : BitVec 3,
      Action.pushOrder.reverse[k]? = some c → k = 7 - c.toNat := by
    decide
  constructor
  · intro h c
    refine h (7 - c.toNat) (f c) ?_
    rw [List.getElem?_map, hplace]
    rfl
  · intro h k v hk
    rw [List.getElem?_map] at hk
    obtain ⟨c, hc, rfl⟩ := Option.map_eq_some_iff.mp hk
    have hlt : k < 8 := (List.getElem?_eq_some_iff.mp hc).1
    rw [honly k hlt c hc]
    exact h c

variable {w : Width} {m m' : Machine} {c : BitVec 3}

theorem KeepsSaved.savedAt_eq (h : m.KeepsSaved w m') (c : BitVec 3) :
    m'.savedAt w c = m.savedAt w c := by
  rw [savedAt, savedAt, h.esp]

theorem KeepsSaved.read_eq (h : m.KeepsSaved w m') (hc : c ≠ Reg.esp.code) :
    m'.memory.read (m'.savedAt w c) w = m.memory.read (m.savedAt w c) w := by
  rw [h.savedAt_eq]
  exact Memory.read_congr h.size (h.bytes c hc)

theorem KeepsSaved.read_ok {v : Long} (h : m.KeepsSaved w m')
    (hread : m.memory.read (m.savedAt w c) w = .ok v) :
    ∃ v', m'.memory.read (m'.savedAt w c) w = .ok v' := by
  have hcovers : m'.memory.covers (m'.savedAt w c) w.bytes = true := by
    rw [h.savedAt_eq, Memory.covers, h.size]
    exact Memory.covers_of_read hread
  exact ⟨_, if_pos hcovers⟩

end Machine

namespace Action

open Machine

variable {w : Width} {m m₁ m₂ : Machine}

/-- **All registers are saved**, the stack pointer as it was before. -/
theorem read_of_pushRegisters {u : Unit} (h : pushRegisters w m = .ok u m₁) (c : BitVec 3) :
    m₁.memory.read (m₁.savedAt w c) w = .ok (m.get ⟨w, c⟩) := by
  obtain ⟨_, ⟨⟩, hpush⟩ := looks_get.ok_bind h
  have hholds := holds_of_pushAll hpush
  rw [← List.map_reverse, List.map_map] at hholds
  rw [holds_pushOrder_iff.mp hholds c]
  exact congrArg _ (m.registers.get_and_mask ⟨w, c⟩)

theorem get_esp_of_pushRegisters {u : Unit} (h : pushRegisters w m = .ok u m₁) :
    m₁.get .esp + BitVec.ofNat 32 (8 * w.bytes) = m.get .esp := by
  obtain ⟨_, ⟨⟩, hpush⟩ := looks_get.ok_bind h
  exact add_of_toNat_add (pushAll_within hpush).1

/-- **What is saved is brought back**, but for what is in the place of the stack pointer. -/
theorem popRegisters_ok (hw : w ≠ .byte) {f : BitVec 3 → Long}
    (hf : ∀ c, m.memory.read (m.savedAt w c) w = .ok (f c)) :
    ∃ m', popRegisters w m = .ok () m' ∧ m'.get .esp = m.get .esp + BitVec.ofNat 32 (8 * w.bytes) ∧
      ∀ c ≠ Reg.esp.code, m'.get ⟨w, c⟩ = f c &&& w.mask := by
  have hmem : ∀ c, c ∈ pushOrder.reverse := by decide
  obtain ⟨m', hpop, hesp, hregs⟩ := popInto_ok hw (holds_pushOrder_iff.mpr hf)
  refine ⟨m', hpop, hesp, fun c hc => ?_⟩
  rw [hregs c hc, if_pos (hmem c)]

/-- `popa` changes no more of a register than the view of its width. -/
theorem high_of_popRegisters (hw : w ≠ .byte) {u : Unit} (h : popRegisters w m = .ok u m₁)
    {c : BitVec 3} (hc : c ≠ Reg.esp.code) :
    m₁.get ⟨.long, c⟩ &&& ~~~w.mask = m.get ⟨.long, c⟩ &&& ~~~w.mask := by
  have hwithin : m.Within { registers := {r | r = .esp ∨ ∃ c, r = ⟨w, c⟩} } m₁ :=
    popInto_stays (F := { registers := {r | r = .esp ∨ ∃ c, r = ⟨w, c⟩} }) (Or.inl rfl)
      (fun c _ => Or.inr ⟨c, rfl⟩) _ _ h
  apply BitVec.eq_of_getLsbD_eq
  intro k hk
  rw [BitVec.getLsbD_and, BitVec.getLsbD_and, BitVec.getLsbD_not, Width.getLsbD_mask]
  by_cases hbits : k < w.bits
  · simp [hbits]
  · have hbit := hwithin.registers c.toFin k (by
      rintro r (rfl | ⟨c', rfl⟩) hshows
      · exact hc (BitVec.eq_of_toFin_eq hshows.1.symm)
      · exact hbits ((Reg.shows_iff hw).mp hshows).2)
    have hslot : ∀ m : Machine, (m.get ⟨.long, c⟩).getLsbD k =
        (m.registers.general.get c.toFin).getLsbD k := by
      intro m
      rw [Machine.get, Registers.getLsbD_get, Reg.slot_eq (by decide)]
      simp [Reg.shift, Reg.isHighByte, Width.bits, Width.bytes, hk]
    rw [hslot, hslot, hbit]

end Action

/-- **`popa` undoes `pusha`**, whatever has changed in between, if the registers are saved still. -/
theorem popa_after_pusha {w : Width} (hw : w ≠ .byte) {m m₁ m₂ : Machine}
    (h : Action.execute ⟨.plain .pusha, w, []⟩ m = .ok true m₁) (hkeep : m₁.KeepsSaved w m₂) :
    (∀ c, m₁.memory.read (m₁.savedAt w c) w = .ok (m.get ⟨w, c⟩)) ∧
    ∃ m₃, Action.execute ⟨.plain .popa, w, []⟩ m₂ = .ok true m₃ ∧
      m₃.get .esp = m.get .esp ∧
      (∀ c ≠ Reg.esp.code, m₃.get ⟨w, c⟩ = m.get ⟨w, c⟩ ∧
        m₃.get ⟨.long, c⟩ &&& ~~~w.mask = m₂.get ⟨.long, c⟩ &&& ~~~w.mask) ∧
      m₂.SameFlow m₃ ∧ m₃.memory = m₂.memory := by
  obtain ⟨_, _, hpush, ⟨⟩⟩ := Action.ok_bind_iff.mp h
  have hsaved := Action.read_of_pushRegisters hpush
  obtain ⟨v, hv⟩ := hkeep.read_ok (hsaved Reg.esp.code)
  have hf : ∀ c, m₂.memory.read (m₂.savedAt w c) w =
      .ok (if c = Reg.esp.code then v else m.get ⟨w, c⟩) := by
    intro c
    by_cases hc : c = Reg.esp.code
    · rw [if_pos hc, hc, hv]
    · rw [if_neg hc, hkeep.read_eq hc, hsaved c]
  obtain ⟨m₃, hpop, hesp, hregs⟩ := Action.popRegisters_ok hw hf
  have hflow := Action.sameFlow_popInto (.inl ⟨_, hpop⟩)
  refine ⟨hsaved, m₃, ?_, ?_, fun c hc => ⟨?_, ?_⟩, hflow.1, hflow.2⟩
  · exact Action.ok_bind_iff.mpr ⟨_, m₃, hpop, rfl⟩
  · rw [hesp, hkeep.esp, Action.get_esp_of_pushRegisters hpush]
  · rw [hregs c hc, if_neg hc]
    exact m.registers.get_and_mask ⟨w, c⟩
  · exact Action.high_of_popRegisters hw hpop hc

/-- A machine of 20 bytes with an empty stack, and a number in each of the other registers. -/
def numbered : Machine where
  registers := { general := #v[0x90000, 0x90001, 0x90002, 0x90003, 20, 0x90005, 0x90006, 0x90007] }
  memory := .zeros 20

/-- `numbered` after `pusha` on words. -/
def numberedSaved : Machine :=
  { numbered.set .esp 4 with
    memory := numbered.memory.store 4 [7, 0, 6, 0, 5, 0, 20, 0, 3, 0, 2, 0, 1, 0, 0, 0] }

/-- `numberedSaved` after `eax`, a flag, a byte below the stack and the place of the stack pointer
have been changed. -/
def numberedSpoilt : Machine :=
  { numberedSaved.set .eax 0xFFFFFFFF with
    flags := { carry := true }, memory := (numberedSaved.memory.store 0 [1]).store 10 [2, 3] }

/-- The low half of `eax` comes back, and the high half does not. -/
theorem popa_after_pusha_numbered :
    Action.execute ⟨.plain .pusha, .word, []⟩ numbered = .ok true numberedSaved ∧
      numberedSaved.KeepsSaved .word numberedSpoilt ∧
      ∃ m, Action.execute ⟨.plain .popa, .word, []⟩ numberedSpoilt = .ok true m ∧
        m.get .esp = numbered.get .esp ∧ m.get .ax = numbered.get .ax ∧
        m.get .eax &&& ~~~Width.word.mask = 0xFFFF0000 := by
  have hpusha : Action.execute ⟨.plain .pusha, .word, []⟩ numbered = .ok true numberedSaved := by
    rfl
  have hkeep : numberedSaved.KeepsSaved .word numberedSpoilt :=
    ⟨by decide +kernel, by decide +kernel, by decide +kernel⟩
  obtain ⟨-, m, hpopa, hesp, hregs, -⟩ := popa_after_pusha (by decide) hpusha hkeep
  obtain ⟨hax, heax⟩ := hregs Reg.eax.code (by decide)
  exact ⟨hpusha, hkeep, m, hpopa, hesp, hax, heax.trans (by decide)⟩

end Ia32
