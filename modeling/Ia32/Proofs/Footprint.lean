import Ia32.Proofs.Stack
import Mathlib.Order.Interval.Set.Basic

/-!
# Footprints

What an action may change is said by a footprint. Everything outside of it stays as it was.

* `Footprint`: places of a machine, the smaller ones below the larger ones;
* `Machine.Within`: two machines agree outside a footprint; `Within.mono`, `Within.trans`;
* `Machine.within_set`, `within_setEip`, `within_flags`, `within_store`: one place at a time;
* `Action.StaysWithin`: an action that succeeds changes no more than a footprint, one part at a
  time;
* `Operand.footprint`, `Action.staysWithin_write`, `Action.staysWithin_update`: operands and flags;
* `Machine.pushed`, **`Action.push_within`**, `Action.pushAll_within`, `Action.staysWithin_pop`: the
  stack.
-/

set_option autoImplicit false

namespace Ia32

/-! ## Places -/

/-- Places of a machine: what register names show, bytes of memory, flags, and perhaps the
instruction pointer. -/
structure Footprint where
  registers : Set Reg := ∅
  memory : Set Nat := ∅
  flags : Set Flag := ∅
  eip : Prop := False

/-- The places of one footprint are among those of another. -/
structure Footprint.Le (F G : Footprint) : Prop where
  registers : F.registers ⊆ G.registers
  memory : F.memory ⊆ G.memory
  flags : F.flags ⊆ G.flags
  eip : F.eip → G.eip

instance : LE Footprint := ⟨Footprint.Le⟩

theorem Footprint.memory_le {F : Footprint} {s : Set Nat} (h : s ⊆ F.memory) :
    ({ memory := s } : Footprint) ≤ F :=
  ⟨Set.empty_subset _, h, Set.empty_subset _, False.elim⟩

namespace Machine

/-- Two machines agree outside a footprint. -/
structure Within (F : Footprint) (m m' : Machine) : Prop extends SameFrame m m' where
  registers : ∀ slot k, (∀ r ∈ F.registers, ¬ r.Shows slot k) →
    (m'.registers.general.get slot).getLsbD k = (m.registers.general.get slot).getLsbD k
  memory : ∀ a ∉ F.memory, m'.memory.bytes[a]? = m.memory.bytes[a]?
  flags : ∀ flag ∉ F.flags, m'.flags.get flag = m.flags.get flag
  eip : ¬ F.eip → m'.eip = m.eip

variable {F G : Footprint} {m m₁ m₂ : Machine}

theorem Within.refl (F : Footprint) (m : Machine) : m.Within F m where
  program := rfl
  size := rfl
  registers _ _ _ := rfl
  memory _ _ := rfl
  flags _ _ := rfl
  eip _ := rfl

theorem Within.mono (h : m.Within F m₁) (hFG : F ≤ G) : m.Within G m₁ where
  toSameFrame := h.toSameFrame
  registers slot k hk := h.registers slot k fun r hr => hk r (hFG.registers hr)
  memory a ha := h.memory a fun hF => ha (hFG.memory hF)
  flags flag hf := h.flags flag fun hF => hf (hFG.flags hF)
  eip he := h.eip fun hF => he (hFG.eip hF)

theorem Within.trans (h : m.Within F m₁) (h' : m₁.Within F m₂) : m.Within F m₂ where
  program := h'.program.trans h.program
  size := h'.size.trans h.size
  registers slot k hk := (h'.registers slot k hk).trans (h.registers slot k hk)
  memory a ha := (h'.memory a ha).trans (h.memory a ha)
  flags flag hf := (h'.flags flag hf).trans (h.flags flag hf)
  eip he := (h'.eip he).trans (h.eip he)

/-! ## One place at a time -/

theorem within_set {r : Reg} (hr : r ∈ F.registers) (v : Long) : m.Within F (m.set r v) where
  program := rfl
  size := rfl
  registers slot k hk := (m.registers.getLsbD_set r v slot k).trans (if_neg (hk r hr))
  memory _ _ := rfl
  flags _ _ := rfl
  eip _ := rfl

theorem within_setEip (he : F.eip) (v : Long) : m.Within F (m.setEip v) where
  program := rfl
  size := rfl
  registers _ _ _ := rfl
  memory _ _ := rfl
  flags _ _ := rfl
  eip h := absurd he h

theorem within_flags {f : Flags} (hf : ∀ flag ∉ F.flags, f.get flag = m.flags.get flag) :
    m.Within F { m with flags := f } where
  program := rfl
  size := rfl
  registers _ _ _ := rfl
  memory _ _ := rfl
  flags := hf
  eip _ := rfl

theorem within_store {address : Long} {bs : List Byte}
    (h : Set.Ico address.toNat (address.toNat + bs.length) ⊆ F.memory) :
    m.Within F { m with memory := m.memory.store address bs } where
  program := rfl
  size := m.memory.size_store address bs
  registers _ _ _ := rfl
  memory a ha := m.memory.getElem?_store (by
    by_contra hin
    exact ha (h ⟨by omega, by omega⟩))
  flags _ _ := rfl
  eip _ := rfl

/-- The stack pointer need not be in the footprint when it has come back. -/
theorem Within.of_get_esp {memory : Set Nat} {flags : Set Flag} {eip : Prop}
    (h : m.Within ⟨{.esp}, memory, flags, eip⟩ m₁) (hesp : m₁.get .esp = m.get .esp) :
    m.Within ⟨∅, memory, flags, eip⟩ m₁ where
  toSameFrame := h.toSameFrame
  registers slot k _ := by
    by_cases hk : Reg.esp.Shows slot k
    · obtain rfl := hk.1
      have hbit := congrArg (·.getLsbD k) hesp
      have hlt : k < Width.long.bits := hk.lt
      simp only [get, Registers.getLsbD_get, hlt, decide_true, Bool.true_and] at hbit
      rwa [show Reg.esp.shift + k = k from Nat.zero_add k] at hbit
    · refine h.registers slot k ?_
      rintro r rfl
      exact hk
  memory := h.memory
  flags := h.flags
  eip := h.eip

/-! ## Operands and the stack -/

/-- The bytes of a value at an address in memory. -/
def operandBytes (m : Machine) (ref : MemRef) (w : Width) : Set Nat :=
  Set.Ico (m.effectiveAddress ref).toNat ((m.effectiveAddress ref).toNat + w.bytes)

/-- What a stack that has grown may change: the stack pointer, and the bytes over which it has
moved. -/
def pushed (m m' : Machine) : Footprint where
  registers := {.esp}
  memory := Set.Ico (m'.get .esp).toNat (m.get .esp).toNat

theorem pushed_le (hesp : .esp ∈ F.registers) (h : (m.pushed m₁).memory ⊆ F.memory) :
    m.pushed m₁ ≤ F :=
  ⟨Set.singleton_subset_iff.mpr hesp, h, Set.empty_subset _, False.elim⟩

end Machine

/-- The places of an operand. -/
def Operand.footprint (m : Machine) (w : Width) : Operand → Footprint
  | reg r => { registers := {r} }
  | mem ref => { memory := m.operandBytes ref w }
  | _ => {}

/-- What an operation sets a flag to, if it sets it. -/
def FlagUpdate.value? (u : FlagUpdate) : Flag → Option Bool
  | .carry => u.carry
  | .parity => u.parity
  | .auxiliary => u.auxiliary
  | .zero => u.zero
  | .sign => u.sign
  | .overflow => u.overflow
  | .trap | .interrupt | .direction => none

theorem FlagUpdate.get_apply (u : FlagUpdate) (f : Flags) (flag : Flag) :
    (u.apply f).get flag = (u.value? flag).getD (f.get flag) := by
  cases flag <;> rfl

namespace Action

open Machine

variable {α β : Type} {F : Footprint} {m m' : Machine} {a : Action α} {k : α → Action β}

/-! ## Actions within a footprint -/

/-- An action that succeeds changes no more than a footprint. -/
def StaysWithin (F : Footprint) (m : Machine) (a : Action α) : Prop :=
  ∀ x m', a m = .ok x m' → m.Within F m'

theorem staysWithin_pure (x : α) : StaysWithin F m (pure x) := by
  rintro y m' ⟨⟩
  exact .refl F m

theorem staysWithin_throw (f : Fault) : StaysWithin F m (throw f : Action α) := by
  rintro y m' ⟨⟩

theorem staysWithin_modify {g : Machine → Machine} (h : m.Within F (g m)) :
    StaysWithin F m (modify g : Action PUnit) := by
  rintro y m' ⟨⟩
  exact h

theorem StaysWithin.bind (ha : StaysWithin F m a)
    (hk : ∀ x m₁, a m = .ok x m₁ → StaysWithin F m₁ (k x)) : StaysWithin F m (a >>= k) := by
  intro y m' h
  obtain ⟨x, m₁, hx, hy⟩ := ok_bind_iff.mp h
  exact (ha x m₁ hx).trans (hk x m₁ hx y m' hy)

theorem Looks.staysWithin_bind (ha : Looks a)
    (hk : ∀ x, a m = .ok x m → StaysWithin F m (k x)) : StaysWithin F m (a >>= k) := by
  intro y m' h
  obtain ⟨x, hx, hy⟩ := ha.ok_bind h
  exact hk x hx y m' hy

theorem staysWithin_get_bind {k : Machine → Action β} (hk : StaysWithin F m (k m)) :
    StaysWithin F m (get >>= k) := by
  refine looks_get.staysWithin_bind fun x hx => ?_
  cases hx
  exact hk

/-! ## Operands and flags -/

variable {w : Width} {v : Long}

theorem staysWithin_store {address : Long}
    (h : Set.Ico address.toNat (address.toNat + w.bytes) ⊆ F.memory) :
    StaysWithin F m (store address w v) := by
  intro x m' hx
  rw [store_eq] at hx
  split at hx
  · cases hx
    exact within_store (by rwa [length_littleEndian])
  · cases hx

theorem staysWithin_write {op : Operand} (h : op.footprint m w ≤ F) :
    StaysWithin F m (write op w v) := by
  cases op with
  | reg r => exact staysWithin_modify (within_set (h.registers rfl) _)
  | mem ref => exact staysWithin_get_bind (staysWithin_store h.memory)
  | imm n | label name => exact staysWithin_throw _

theorem staysWithin_update {u : FlagUpdate}
    (h : ∀ flag, u.value? flag ≠ none → flag ∈ F.flags) : StaysWithin F m (update u) := by
  refine staysWithin_modify (within_flags fun flag hflag => ?_)
  rw [FlagUpdate.get_apply, not_imp_comm.mp (h flag) hflag, Option.getD_none]

/-! ## The stack -/

theorem staysWithin_pop (hesp : .esp ∈ F.registers) : StaysWithin F m (pop w) := by
  intro v m' h
  obtain ⟨-, rfl⟩ := pop_ok_iff.mp h
  exact within_set hesp _

/-- **What is put on the stack** changes the bytes over which the stack pointer moves. -/
theorem push_within {u : Unit} (h : push w v m = .ok u m') :
    (m'.get .esp).toNat + w.bytes = (m.get .esp).toNat ∧ m.Within (m.pushed m') m' := by
  have hnew := get_esp_of_push h
  obtain ⟨hle, -, hm'⟩ := push_ok_iff.mp h
  have hesp : (m'.get .esp).toNat + w.bytes = (m.get .esp).toNat := by
    rw [hnew, toNat_sub_bytes hle, Nat.sub_add_cancel hle]
  have hlowered : m.Within (m.pushed m') (m.lowered w) := within_set (Set.mem_singleton _) _
  have hstored : (m.lowered w).Within (m.pushed m') { m.lowered w with
      memory := m.memory.store (m.get .esp - BitVec.ofNat 32 w.bytes)
        (littleEndian w.bytes v) } := by
    refine within_store ?_
    rw [length_littleEndian, ← hnew, hesp]
    exact subset_rfl
  rw [← hm'] at hstored
  exact ⟨hesp, hlowered.trans hstored⟩

theorem pushAll_within {vs : List Long} {u : Unit} (h : pushAll w vs m = .ok u m') :
    (m'.get .esp).toNat + vs.length * w.bytes = (m.get .esp).toNat ∧
      m.Within (m.pushed m') m' := by
  induction vs generalizing m with
  | nil =>
    cases h
    exact ⟨by simp, .refl _ _⟩
  | cons v vs ih =>
    obtain ⟨_, m₁, hpush, hrest⟩ := ok_bind_iff.mp h
    obtain ⟨hesp, hwithin⟩ := push_within hpush
    obtain ⟨hesp', hwithin'⟩ := ih hrest
    rw [List.length_cons, Nat.succ_mul]
    have hle : m.pushed m₁ ≤ m.pushed m' :=
      pushed_le (Set.mem_singleton _) (Set.Ico_subset_Ico_left (by omega))
    have hle' : m₁.pushed m' ≤ m.pushed m' :=
      pushed_le (Set.mem_singleton _) (Set.Ico_subset_Ico_right (by omega))
    exact ⟨by omega, (hwithin.mono hle).trans (hwithin'.mono hle')⟩

end Action

end Ia32
