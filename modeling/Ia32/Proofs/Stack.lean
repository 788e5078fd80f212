import Ia32.Proofs.Harmless
import Ia32.Proofs.Registers

/-!
# The stack

A failure takes nothing back: what had been put on the stack before, and how far the stack pointer
had moved, stays so.

* `Machine.lowered`, `Machine.raised`: the stack pointer moved over one value;
* `Machine.SameFlow`, `Machine.SameRegisters`: what the stack leaves alone;
* `Action.PushFails`, **`Action.push_error_iff`**: how a value cannot be put on the stack;
  `Action.PopFails`, **`Action.pop_error_iff`**: how none can be taken off it;
* `Action.push_ok_iff`, `Action.pop_ok_iff`: the machine when that succeeds;
  **`Action.read_of_push`**: what is on the stack then;
* `Action.forM_error_iff`, `Action.leaves_forM`: an action for each member of a list, how it fails
  and what it keeps; `Action.pushAll_error_iff`, `Action.popInto_error_iff`: so several values.
-/

set_option autoImplicit false

namespace Ia32

/-! ## The stack pointer -/

namespace Machine

/-- A machine with its stack pointer moved down by a width. -/
def lowered (m : Machine) (w : Width) : Machine :=
  m.set .esp (m.get .esp - BitVec.ofNat 32 w.bytes)

/-- A machine with its stack pointer moved up by a width. -/
def raised (m : Machine) (w : Width) : Machine :=
  m.set .esp (m.get .esp + BitVec.ofNat 32 w.bytes)

/-- Two machines have the same flags as well. -/
structure SameFlow (m m' : Machine) : Prop extends SameControl m m' where
  flags : m'.flags = m.flags

/-- Two machines have the same registers, but for the stack pointer. -/
def SameRegisters (m m' : Machine) : Prop :=
  ∀ r : Reg, r.slot ≠ Reg.esp.slot → m'.get r = m.get r

variable {m m₁ m₂ : Machine}

theorem SameFlow.refl (m : Machine) : SameFlow m m := ⟨⟨⟨rfl, rfl⟩, rfl⟩, rfl⟩

theorem SameFlow.trans (h : SameFlow m m₁) (h' : SameFlow m₁ m₂) : SameFlow m m₂ :=
  ⟨Action.rules_sameControl.trans _ _ _ h.toSameControl h'.toSameControl, h'.flags.trans h.flags⟩

theorem sameFlow_set (m : Machine) (r : Reg) (v : Long) : SameFlow m (m.set r v) :=
  ⟨Action.rules_sameControl.set m r v, rfl⟩

theorem SameRegisters.refl (m : Machine) : SameRegisters m m := fun _ _ => rfl

theorem SameRegisters.trans (h : SameRegisters m m₁) (h' : SameRegisters m₁ m₂) :
    SameRegisters m m₂ := fun r hr => (h' r hr).trans (h r hr)

theorem get_set_of_slot_ne (m : Machine) {r r' : Reg} (h : r'.slot ≠ r.slot) (v : Long) :
    (m.set r v).get r' = m.get r' := by
  have hne : r.slot.val ≠ r'.slot.val := fun he => h (Fin.ext he.symm)
  have hslot : ∀ x, (m.registers.general.set r.slot x).get r'.slot =
      m.registers.general.get r'.slot :=
    fun x => Vector.getElem_set_ne r.slot.isLt r'.slot.isLt hne
  simp only [get, set, Registers.get, Registers.set, hslot]

theorem sameRegisters_set_esp (m : Machine) (v : Long) : SameRegisters m (m.set .esp v) :=
  fun _ hr => m.get_set_of_slot_ne hr v

theorem get_set_esp (m : Machine) (v : Long) : (m.set .esp v).get .esp = v :=
  (m.registers.get_set_self .esp v).trans BitVec.and_allOnes

theorem get_lowered (m : Machine) (w : Width) :
    (m.lowered w).get .esp = m.get .esp - BitVec.ofNat 32 w.bytes := m.get_set_esp _

theorem get_raised (m : Machine) (w : Width) :
    (m.raised w).get .esp = m.get .esp + BitVec.ofNat 32 w.bytes := m.get_set_esp _

theorem toNat_sub_bytes {esp : Long} {w : Width} (h : w.bytes ≤ esp.toNat) :
    (esp - BitVec.ofNat 32 w.bytes).toNat = esp.toNat - w.bytes := by
  have hlt : w.bytes < 2 ^ 32 := by cases w <;> decide
  have hn : (BitVec.ofNat 32 w.bytes).toNat = w.bytes := Nat.mod_eq_of_lt hlt
  have hle : BitVec.ofNat 32 w.bytes ≤ esp := by
    rw [BitVec.le_def, hn]
    exact h
  rw [BitVec.toNat_sub_of_le hle, hn]

theorem toNat_add_bytes {esp : Long} {w : Width} (h : esp.toNat + w.bytes < 2 ^ 32) :
    (esp + BitVec.ofNat 32 w.bytes).toNat = esp.toNat + w.bytes := toNat_add_ofNat h

theorem add_of_toNat_add {low high : Long} {n : Nat} (h : low.toNat + n = high.toNat) :
    low + BitVec.ofNat 32 n = high := by
  apply BitVec.eq_of_toNat_eq
  rw [BitVec.toNat_add, BitVec.toNat_ofNat, Nat.add_mod_mod, h, Nat.mod_eq_of_lt high.isLt]

end Machine

namespace Action

open Machine

variable {w : Width} {v : Long} {m m' : Machine} {f : Fault}

/-! ## One value -/

/-- A value cannot be put on the stack. The stack pointer has moved if it is memory that fails. -/
inductive PushFails (w : Width) (m : Machine) : Fault → Machine → Prop where
  | overflow (h : (m.get .esp).toNat < w.bytes) : PushFails w m .stackOverflow m
  | outside (h : w.bytes ≤ (m.get .esp).toNat)
      (hc : m.memory.covers (m.get .esp - BitVec.ofNat 32 w.bytes) w.bytes = false) :
      PushFails w m (.illegalAccess (m.get .esp - BitVec.ofNat 32 w.bytes) w.bytes) (m.lowered w)

/-- A value cannot be taken off the stack. -/
inductive PopFails (w : Width) (m : Machine) : Fault → Machine → Prop where
  | underflow (h : m.memory.covers (m.get .esp) w.bytes = false) : PopFails w m .stackUnderflow m

theorem store_eq (address : Long) (w : Width) (v : Long) (m : Machine) : store address w v m =
    if m.memory.covers address w.bytes then
      .ok () { m with memory := m.memory.store address (littleEndian w.bytes v) }
    else .error (.illegalAccess address w.bytes) m := by
  change (if m.memory.covers address w.bytes then
    modify fun m => { m with memory := m.memory.store address (littleEndian w.bytes v) }
    else throw (.illegalAccess address w.bytes) : Action Unit) m = _
  split <;> rfl

/-- **What is put on the stack** is written after the stack pointer has moved. -/
theorem push_eq (w : Width) (v : Long) (m : Machine) : push w v m =
    if (m.get .esp).toNat < w.bytes then .error .stackOverflow m
    else store (m.get .esp - BitVec.ofNat 32 w.bytes) w v (m.lowered w) := by
  change (if (m.get .esp).toNat < w.bytes then throw .stackOverflow
    else do
      modify fun m' => m'.set .esp (m.get .esp - BitVec.ofNat 32 w.bytes)
      store (m.get .esp - BitVec.ofNat 32 w.bytes) w v : Action Unit) m = _
  split <;> rfl

theorem push_error_iff : push w v m = .error f m' ↔ PushFails w m f m' := by
  rw [push_eq, store_eq]
  constructor
  · intro h
    split at h
    · next hesp =>
      cases h
      exact .overflow hesp
    · next hesp =>
      split at h
      · cases h
      · next hc =>
        cases h
        exact .outside (by omega) (Bool.eq_false_iff.mpr hc)
  · intro h
    cases h with
    | overflow hesp => rw [if_pos hesp]
    | outside hesp hc =>
      have hc : (m.lowered w).memory.covers (m.get .esp - BitVec.ofNat 32 w.bytes) w.bytes =
        false := hc
      rw [if_neg (by omega), hc]
      rfl

theorem push_ok_iff {u : Unit} : push w v m = .ok u m' ↔ w.bytes ≤ (m.get .esp).toNat ∧
    m.memory.covers (m.get .esp - BitVec.ofNat 32 w.bytes) w.bytes = true ∧
    m' = { m.lowered w with
      memory := m.memory.store (m.get .esp - BitVec.ofNat 32 w.bytes)
        (littleEndian w.bytes v) } := by
  rw [push_eq, store_eq]
  constructor
  · intro h
    split at h
    · cases h
    · next hesp =>
      split at h
      · next hc =>
        cases h
        exact ⟨by omega, hc, rfl⟩
      · cases h
  · rintro ⟨hesp, hc, rfl⟩
    rw [if_neg (by omega)]
    exact if_pos hc

theorem get_esp_of_push {u : Unit} (h : push w v m = .ok u m') :
    m'.get .esp = m.get .esp - BitVec.ofNat 32 w.bytes := by
  obtain ⟨-, -, rfl⟩ := push_ok_iff.mp h
  exact m.get_lowered w

theorem read_of_push {u : Unit} (h : push w v m = .ok u m') :
    m'.memory.read (m'.get .esp) w = .ok (v &&& w.mask) := by
  rw [get_esp_of_push h]
  obtain ⟨-, hcovers, rfl⟩ := push_ok_iff.mp h
  exact m.memory.read_store v hcovers

theorem pop_error_iff : pop w m = .error f m' ↔ PopFails w m f m' := by
  rw [pop_eq, Memory.read]
  constructor
  · intro h
    by_cases hc : m.memory.covers (m.get .esp) w.bytes = true
    · rw [if_pos hc] at h
      cases h
    · rw [if_neg hc] at h
      cases h
      exact .underflow (Bool.eq_false_iff.mpr hc)
  · rintro ⟨hc⟩
    rw [hc]
    rfl

theorem pop_ok_iff : pop w m = .ok v m' ↔
    m.memory.read (m.get .esp) w = .ok v ∧ m' = m.raised w := by
  rw [pop_eq]
  constructor
  · intro h
    cases hread : m.memory.read (m.get .esp) w with
    | error f =>
      rw [hread] at h
      cases h
    | ok v' =>
      rw [hread] at h
      cases h
      exact ⟨rfl, rfl⟩
  · rintro ⟨hread, rfl⟩
    rw [hread]
    rfl

theorem sameFlow_push (h : Leaves (push w v) m m') : SameFlow m m' ∧ SameRegisters m m' := by
  have hlow : SameFlow m (m.lowered w) ∧ SameRegisters m (m.lowered w) :=
    ⟨sameFlow_set _ _ _, sameRegisters_set_esp _ _⟩
  rcases h with ⟨x, h⟩ | ⟨f, h⟩
  · rw [push_eq, store_eq] at h
    split at h
    · cases h
    · split at h
      · cases h
        refine ⟨⟨⟨⟨hlow.1.program, ?_⟩, hlow.1.eip⟩, hlow.1.flags⟩, hlow.2⟩
        exact (Memory.size_store _ _ _).trans hlow.1.size
      · cases h
  · cases push_error_iff.mp h with
    | overflow => exact ⟨.refl m, .refl m⟩
    | outside => exact hlow

theorem pop_bind_error_iff {g : Long → Machine → Machine} :
    (do let v ← pop w; modify (g v) : Action Unit) m = .error f m' ↔ PopFails w m f m' := by
  rw [error_bind_iff, pop_error_iff]
  refine or_iff_left ?_
  rintro ⟨v, m₁, -, h⟩
  cases h

/-! ## One action for each member of a list -/

section Each

variable {σ : Type} {each : σ → Action Unit} {xs : List σ}

/-- **Actions one after the other** fail where the first of them does. -/
theorem forM_error_iff {Fails : Machine → Fault → Machine → Prop}
    (heach : ∀ x m f m', each x m = .error f m' ↔ Fails m f m') :
    xs.forM each m = .error f m' ↔
      ∃ k m₁, k < xs.length ∧ (xs.take k).forM each m = .ok () m₁ ∧ Fails m₁ f m' := by
  induction xs generalizing m with
  | nil =>
    constructor
    · intro h
      cases h
    · rintro ⟨k, m₁, hk, -⟩
      simp at hk
  | cons x xs ih =>
    constructor
    · intro h
      rcases error_bind_iff.mp h with hf | ⟨u, m₁, hx, hrest⟩
      · exact ⟨0, m, by simp, rfl, (heach x m f m').mp hf⟩
      · obtain ⟨k, m₂, hk, htake, hfails⟩ := ih.mp hrest
        refine ⟨k + 1, m₂, by simpa using hk, ?_, hfails⟩
        exact ok_bind_iff.mpr ⟨u, m₁, hx, htake⟩
    · rintro ⟨k, m₁, hk, htake, hfails⟩
      refine error_bind_iff.mpr ?_
      cases k with
      | zero =>
        cases htake
        exact .inl ((heach x _ f m').mpr hfails)
      | succ k =>
        obtain ⟨u, m₂, hx, htake⟩ := ok_bind_iff.mp htake
        exact .inr ⟨u, m₂, hx, ih.mpr ⟨k, m₁, by simpa using hk, htake, hfails⟩⟩

theorem leaves_forM {R : Machine → Machine → Prop} (hrefl : ∀ m, R m m)
    (htrans : ∀ {m₁ m₂ m₃}, R m₁ m₂ → R m₂ m₃ → R m₁ m₃)
    (heach : ∀ {x m m'}, Leaves (each x) m m' → R m m') (h : Leaves (xs.forM each) m m') :
    R m m' := by
  induction xs generalizing m with
  | nil =>
    obtain rfl := looks_pure PUnit.unit m m' h
    exact hrefl _
  | cons x xs ih =>
    rcases leaves_bind h with ⟨f, hf⟩ | ⟨u, m₁, hu, hrest⟩
    · exact heach (.inr ⟨f, hf⟩)
    · exact htrans (heach (.inl ⟨u, hu⟩)) (ih hrest)

end Each

/-! ## Several values -/

theorem pushAll_eq_forM (w : Width) (vs : List Long) : pushAll w vs = vs.forM (push w) := by
  induction vs with
  | nil => rfl
  | cons v vs ih => exact congrArg (push w v >>= fun _ => ·) ih

theorem pushAll_error_iff {vs : List Long} : pushAll w vs m = .error f m' ↔
    ∃ k m₁, k < vs.length ∧ pushAll w (vs.take k) m = .ok () m₁ ∧ PushFails w m₁ f m' := by
  simp only [pushAll_eq_forM]
  exact forM_error_iff fun _ _ _ _ => push_error_iff

theorem sameFlow_pushAll {vs : List Long} (h : Leaves (pushAll w vs) m m') :
    SameFlow m m' ∧ SameRegisters m m' := by
  rw [pushAll_eq_forM] at h
  refine leaves_forM (fun m => ⟨.refl m, .refl m⟩) (fun h h' => ?_) sameFlow_push h
  exact ⟨h.1.trans h'.1, h.2.trans h'.2⟩

/-- Gives a register a value that was taken off the stack. The stack pointer is passed over. -/
def keep (w : Width) (c : BitVec 3) (v : Long) (m : Machine) : Machine :=
  if c ≠ Reg.esp.code then m.set ⟨w, c⟩ v else m

/-- Takes a value off the stack for a register. -/
def popRegister (w : Width) (c : BitVec 3) : Action Unit := do
  let v ← pop w
  modify (keep w c v)

theorem popInto_cons (w : Width) (c : BitVec 3) (cs : List (BitVec 3)) :
    popInto w (c :: cs) = popRegister w c >>= fun _ => popInto w cs := by
  unfold popRegister
  rw [bind_assoc]
  funext m
  change EStateM.bind (pop w) _ m = EStateM.bind (pop w) _ m
  unfold EStateM.bind
  cases pop w m with
  | error f m₁ => rfl
  | ok v m₁ =>
    by_cases hc : c = Reg.esp.code
    · subst hc
      rfl
    · have hkeep : keep w c v = fun m => m.set ⟨w, c⟩ v := by
        funext m
        exact if_pos hc
      dsimp only
      rw [if_pos hc, hkeep]

theorem popInto_eq_forM (w : Width) (cs : List (BitVec 3)) :
    popInto w cs = cs.forM (popRegister w) := by
  induction cs with
  | nil => rfl
  | cons c cs ih =>
    rw [popInto_cons, ih]
    rfl

theorem popInto_error_iff {cs : List (BitVec 3)} : popInto w cs m = .error f m' ↔
    ∃ k m₁, k < cs.length ∧ popInto w (cs.take k) m = .ok () m₁ ∧ PopFails w m₁ f m' := by
  simp only [popInto_eq_forM]
  exact forM_error_iff fun _ _ _ _ => pop_bind_error_iff

theorem sameFlow_popRegister {c : BitVec 3} (h : Leaves (popRegister w c) m m') :
    SameFlow m m' ∧ m'.memory = m.memory := by
  rcases leaves_bind h with ⟨f, hf⟩ | ⟨v, m₁, hv, hkeep⟩
  · obtain rfl := harmless_pop w _ _ _ hf
    exact ⟨.refl _, rfl⟩
  · obtain ⟨-, rfl⟩ := pop_ok_iff.mp hv
    rw [leaves_modify hkeep, keep]
    have hraised : SameFlow m (m.raised w) := sameFlow_set _ _ _
    split
    · exact ⟨hraised.trans (sameFlow_set _ _ _), rfl⟩
    · exact ⟨hraised, rfl⟩

theorem sameFlow_popInto {cs : List (BitVec 3)} (h : Leaves (popInto w cs) m m') :
    SameFlow m m' ∧ m'.memory = m.memory := by
  rw [popInto_eq_forM] at h
  refine leaves_forM (R := fun m m' => SameFlow m m' ∧ m'.memory = m.memory)
    (fun m => ⟨.refl m, rfl⟩) (fun h h' => ?_) sameFlow_popRegister h
  exact ⟨h.1.trans h'.1, h'.2.trans h.2⟩

end Action

end Ia32
