import Ia32.Proofs.Execution
import Ia32.Proofs.Memory

/-!
# Where control goes

* `Action.Leaves`: the machine that an action leaves, whether it fails or not;
* `AddressRange.contains_iff`: the addresses of a program;
* `Machine.SameFrame`, `Machine.SameControl`: machines with the same program and as much memory,
  and with the same instruction pointer as well; `Pc.loaded_of_load`: a machine with its code;
* **`Action.perform_eip`**: after an instruction control is behind it, at the target of a branch,
  or where `ret` was told to go;
* `Action.Steps`, **`Action.step_cases`**: what a step can do.
-/

set_option autoImplicit false

namespace Ia32

/-! ## Machines alike -/

/-- Two machines have the same program and as much memory. -/
structure Machine.SameFrame (m m' : Machine) : Prop where
  program : m'.program = m.program
  size : m'.memory.size = m.memory.size

/-- Two machines have the same instruction pointer as well. -/
structure Machine.SameControl (m m' : Machine) : Prop extends SameFrame m m' where
  eip : m'.eip = m.eip

theorem AddressRange.contains_iff {first a : Long} {n : Nat} (h : first.toNat + n < 2 ^ 32) :
    AddressRange.contains ⟨first, first + BitVec.ofNat 32 n⟩ a = true ↔
      first.toNat ≤ a.toNat ∧ a.toNat < first.toNat + n := by
  rw [contains, toNat_add_ofNat h, Bool.and_eq_true, decide_eq_true_iff, decide_eq_true_iff]

/-- A machine that is fresh but for code in its memory, from whose start it begins at an offset. -/
structure Pc.Loaded (pc : Pc) (code : List Byte) (load offset : Long) (pc' : Pc) : Prop where
  memorySize : pc'.memorySize = pc.memorySize
  fits : load.toNat + code.length ≤ pc.memorySize.toNat
  program : pc'.machine.program = ⟨load, load + BitVec.ofNat 32 code.length⟩
  size : pc'.machine.memory.size = pc.memorySize.toNat
  code : pc'.machine.memory.window load code.length = code
  eip : pc'.machine.eip = load + offset

theorem Pc.loaded_of_load {pc pc' : Pc} {code : List Byte} {load offset : Long}
    (h : pc.load code load offset = .ok pc') : pc.Loaded code load offset pc' := by
  obtain ⟨hfit, h⟩ := guard_ok_iff.mp h
  obtain ⟨memory, hmemory, h⟩ := bind_ok_iff.mp h
  cases h
  unfold Memory.load at hmemory
  split at hmemory
  · next hcovers =>
    cases hmemory
    refine ⟨rfl, by omega, rfl, ?_, Memory.window_store _ hcovers, rfl⟩
    exact (Memory.size_store _ _ _).trans Array.size_replicate
  · cases hmemory

namespace Action

variable {α β : Type} {P : Fault → Prop} {R : Machine → Machine → Prop} {a : Action α}
  {k : α → Action β} {m m' : Machine}

theorem rules_sameFrame : Rules (fun _ => True) Machine.SameFrame where
  access _ _ := trivial
  overflow := trivial
  underflow := trivial
  refl _ := ⟨rfl, rfl⟩
  trans _ _ _ h h' := ⟨h'.program.trans h.program, h'.size.trans h.size⟩
  set _ _ _ := ⟨rfl, rfl⟩
  flags _ _ := ⟨rfl, rfl⟩
  store m address bs := ⟨rfl, m.memory.size_store address bs⟩

theorem rules_sameControl : Rules (fun _ => True) Machine.SameControl where
  access _ _ := trivial
  overflow := trivial
  underflow := trivial
  refl m := ⟨rules_sameFrame.refl m, rfl⟩
  trans _ _ _ h h' := ⟨rules_sameFrame.trans _ _ _ h.toSameFrame h'.toSameFrame,
    h'.eip.trans h.eip⟩
  set m r v := ⟨rules_sameFrame.set m r v, rfl⟩
  flags m f := ⟨rules_sameFrame.flags m f, rfl⟩
  store m address bs := ⟨rules_sameFrame.store m address bs, rfl⟩

/-! ## The machine that is left -/

/-- An action leaves a machine, whether it fails or not. -/
def Leaves (a : Action α) (m m' : Machine) : Prop :=
  (∃ x, a m = .ok x m') ∨ ∃ f, a m = .error f m'

theorem Obeys.leaves (ha : Obeys P R a) (h : a.Leaves m m') : R m m' := by
  rcases h with ⟨x, h⟩ | ⟨f, h⟩
  · exact ha.ok h
  · exact (ha.error h).2

theorem leaves_bind (h : Leaves (a >>= k) m m') :
    (∃ f, a m = .error f m') ∨ ∃ x m₁, a m = .ok x m₁ ∧ Leaves (k x) m₁ m' := by
  change (∃ y, EStateM.bind a k m = .ok y m') ∨ ∃ f, EStateM.bind a k m = .error f m' at h
  unfold EStateM.bind at h
  cases hm : a m with
  | ok x m₁ =>
    rw [hm] at h
    exact .inr ⟨x, m₁, rfl, h⟩
  | error f m₁ =>
    rw [hm] at h
    obtain ⟨y, h⟩ | ⟨f', h⟩ := h
    · cases h
    · cases h
      exact .inl ⟨f, rfl⟩

theorem leaves_modify {g : Machine → Machine} (h : Leaves (modify g : Action PUnit) m m') :
    m' = g m := by
  obtain ⟨x, h⟩ | ⟨f, h⟩ := h
  · cases h
    rfl
  · cases h

/-! ## Parts by what they give -/

theorem look_eq (f : Machine → Except Fault α) (m : Machine) : look f m =
    match f m with
    | .ok x => .ok x m
    | .error e => .error e m := by
  unfold look
  change EStateM.bind EStateM.get _ m = _
  unfold EStateM.bind EStateM.get
  dsimp only
  cases f m <;> rfl

theorem read_error_iff {op : Operand} {w : Width} {m m' : Machine} {f : Fault} :
    read op w m = .error f m' ↔ m.readOperand op w = .error f ∧ m' = m := by
  unfold read
  rw [look_eq]
  cases m.readOperand op w with
  | ok v => simp
  | error f' => simp [eq_comm]

theorem read_ok_iff {op : Operand} {w : Width} {v : Long} {m m' : Machine} :
    read op w m = .ok v m' ↔ m.readOperand op w = .ok v ∧ m' = m := by
  unfold read
  rw [look_eq]
  cases m.readOperand op w with
  | ok v' => simp [eq_comm]
  | error f' => simp

/-- **What is taken off the stack** is the value at the stack pointer. -/
theorem pop_eq (w : Width) (m : Machine) : pop w m =
    match m.memory.read (m.get .esp) w with
    | .ok v => .ok v (m.set .esp (m.get .esp + BitVec.ofNat 32 w.bytes))
    | .error _ => .error .stackUnderflow m := by
  change (if (!m.memory.covers (m.get .esp) w.bytes) = true then throw .stackUnderflow
    else (do
      let v ← look fun m' => m'.memory.read (m.get .esp) w
      modify fun m' => m'.set .esp (m.get .esp + BitVec.ofNat 32 w.bytes)
      return v : Action Long)) m = _
  unfold Memory.read
  cases hc : m.memory.covers (m.get .esp) w.bytes with
  | false => rfl
  | true =>
    change EStateM.bind (look fun m' => m'.memory.read (m.get .esp) w) _ m = _
    unfold EStateM.bind
    rw [look_eq, Memory.read, if_pos hc]
    rfl

theorem jumpIf_eq (c : Cond) (i : Instr) (m : Machine) :
    jumpIf c i m = if c.holds m.flags then jump i m else .ok () m := by
  change (if c.holds m.flags then jump i else pure ()) m = _
  split <;> rfl

/-! ## Instructions -/

variable {i : Instr}

theorem jump_eq {n : Int} (hops : i.operands = [.imm n]) (m : Machine) :
    jump i m = .ok () (m.setEip (BitVec.ofInt 32 n)) := by
  have hd : i.destination? = some (.imm n) := by rw [Instr.destination?, hops]; rfl
  unfold jump
  rw [Instr.destination_eq hd, pure_bind, ← Width.long_truncate]
  rfl

theorem jump_eip {n : Int} (hops : i.operands = [.imm n]) (h : Leaves (jump i) m m') :
    m'.eip = BitVec.ofInt 32 n := by
  obtain ⟨x, h⟩ | ⟨f, h⟩ := h
  · rw [jump_eq hops] at h
    cases h
    rfl
  · rw [jump_eq hops] at h
    cases h

theorem jumpIf_eip {c : Cond} {n : Int} (hops : i.operands = [.imm n])
    (h : Leaves (jumpIf c i) m m') : m'.eip = m.eip ∨ m'.eip = BitVec.ofInt 32 n := by
  unfold Leaves at h
  rw [jumpIf_eq] at h
  by_cases hc : c.holds m.flags = true
  · rw [if_pos hc] at h
    exact .inr (jump_eip hops h)
  · rw [if_neg hc] at h
    obtain ⟨x, h⟩ | ⟨f, h⟩ := h <;> cases h
    exact .inl rfl

theorem call_eip {n : Int} (hops : i.operands = [.imm n]) (h : Leaves (call i) m m') :
    m'.eip = m.eip ∨ m'.eip = BitVec.ofInt 32 n := by
  have hd : i.destination? = some (.imm n) := by rw [Instr.destination?, hops]; rfl
  have hpush := push_obeys rules_sameControl .long m.eip
  unfold call at h
  rw [Instr.destination_eq hd, pure_bind] at h
  rcases leaves_bind h with ⟨f, hf⟩ | ⟨v, m₁, hv, h⟩
  · cases hf
  · cases hv
    rcases leaves_bind h with ⟨f, hf⟩ | ⟨m₂, _, hm₂, h⟩
    · cases hf
    · cases hm₂
      rcases leaves_bind h with ⟨f, hf⟩ | ⟨_, m₃, hm₃, h⟩
      · exact .inl (hpush.error hf).2.eip
      · rw [leaves_modify h, ← Width.long_truncate]
        exact .inr rfl

theorem ret_eip (h : Leaves ret m m') :
    m'.eip = m.eip ∨ m.memory.read (m.get .esp) .long = .ok m'.eip := by
  unfold ret at h
  rcases leaves_bind h with ⟨f, hf⟩ | ⟨v, m₁, hv, h⟩
  · exact .inl ((pop_obeys rules_sameControl .long).error hf).2.eip
  · rw [pop_eq] at hv
    cases hread : m.memory.read (m.get .esp) .long with
    | error f =>
      rw [hread] at hv
      cases hv
    | ok v' =>
      rw [hread] at hv
      cases hv
      rw [leaves_modify h]
      exact .inr rfl

/-- **Control goes** to what follows the instruction, to the target of a branch, or, after `ret`, to
the address on the stack. -/
theorem perform_eip (ht : i.mnemonic.Takes i.width i.operands) (h : Leaves (perform i) m m') :
    m'.eip = m.eip ∨
      (i.mnemonic.isBranch = true ∧
        ∃ n : Int, i.operands = [.imm n] ∧ m'.eip = BitVec.ofInt 32 n) ∨
      i.mnemonic = .plain .ret ∧ m.memory.read (m.get .esp) .long = .ok m'.eip := by
  by_cases hbranch : i.mnemonic.isBranch = true
  · obtain ⟨-, n, hops⟩ := ht.of_isBranch hbranch
    refine (?_ : m'.eip = m.eip ∨ m'.eip = BitVec.ofInt 32 n).imp_right fun heip =>
      .inl ⟨hbranch, n, hops, heip⟩
    obtain ⟨mnemonic, w, ops⟩ := i
    cases mnemonic with
    | jmp => exact .inr (jump_eip hops h)
    | jcc c => exact jumpIf_eip hops h
    | call => exact call_eip hops h
    | _ => cases hbranch
  · by_cases hret : i.mnemonic = .plain .ret
    · rw [perform_eq, effect, hret] at h
      exact (ret_eip h).imp_right fun hread => .inr ⟨hret, hread⟩
    · have hobeys : Obeys (fun _ => True) Machine.SameControl (perform i) := by
        refine perform_obeys rules_sameControl ht (fun _ => ⟨trivial, trivial⟩) ?_
        rintro (hb | hr)
        · exact absurd hb hbranch
        · exact absurd hr hret
      exact .inl (hobeys.leaves h).eip

/-! ## Steps -/

/-- **A step** by what is fetched. -/
theorem step_eq (m : Machine) : step m =
    match m.fetch with
    | .error f => .error f m
    | .ok none => .ok none m
    | .ok (some d) =>
      if isStop d.toInstr then .ok none m
      else match perform d.toInstr (m.setEip d.next) with
        | .ok _ m' => .ok (some d) m'
        | .error f m' => .error f m' := by
  unfold step
  change EStateM.bind (look Machine.fetch) _ m = _
  unfold EStateM.bind
  rw [look_eq]
  rcases m.fetch with f | _ | d
  · rfl
  · rfl
  · dsimp only
    cases hs : isStop d.toInstr with
    | true => rfl
    | false =>
      simp only [Bool.false_eq_true, if_false]
      change (EStateM.bind (perform d.toInstr) _ (m.setEip d.next)) = _
      unfold EStateM.bind
      cases perform d.toInstr (m.setEip d.next) <;> rfl

/-- What a step can do. It fails where nothing can be fetched; it stops where the program ends, and
at `nop`; else the instruction that is fetched is executed, which can fail. -/
inductive Steps (m : Machine) : EStateM.Result Fault Machine (Option Decoded) → Prop where
  | unfetched {f : Fault} (h : m.fetch = .error f) : Steps m (.error f m)
  | ended (h : m.fetch = .ok none) : Steps m (.ok none m)
  | stopped {d : Decoded} (h : m.fetch = .ok (some d)) (hs : isStop d.toInstr = true) :
      Steps m (.ok none m)
  | performed {d : Decoded} {m' : Machine} (h : m.fetch = .ok (some d))
      (hp : perform d.toInstr (m.setEip d.next) = .ok () m') : Steps m (.ok (some d) m')
  | failed {d : Decoded} {f : Fault} {m' : Machine} (h : m.fetch = .ok (some d))
      (hp : perform d.toInstr (m.setEip d.next) = .error f m') : Steps m (.error f m')

/-- **Nothing else happens in a step.** -/
theorem step_cases (m : Machine) : Steps m (step m) := by
  rw [step_eq]
  rcases hf : m.fetch with f | _ | d
  · exact .unfetched hf
  · exact .ended hf
  · dsimp only
    by_cases hs : isStop d.toInstr = true
    · rw [if_pos hs]
      exact .stopped hf hs
    · rw [if_neg hs]
      cases hp : perform d.toInstr (m.setEip d.next) with
      | ok u m' => exact .performed hf hp
      | error f m' => exact .failed hf hp

theorem step_leaves (h : Leaves step m m') :
    m' = m ∨ ∃ d, m.fetch = .ok (some d) ∧ Leaves (perform d.toInstr) (m.setEip d.next) m' := by
  have hs := step_cases m
  obtain ⟨x, h⟩ | ⟨f, h⟩ := h
  · rw [h] at hs
    cases hs with
    | ended hf => exact .inl rfl
    | stopped hf hstop => exact .inl rfl
    | performed hf hp => exact .inr ⟨_, hf, .inl ⟨_, hp⟩⟩
  · rw [h] at hs
    cases hs with
    | unfetched hf => exact .inl rfl
    | failed hf hp => exact .inr ⟨_, hf, .inr ⟨_, hp⟩⟩

theorem fetch_of_step {d : Decoded} (h : step m = .ok (some d) m') : m.fetch = .ok (some d) := by
  have hs := step_cases m
  rw [h] at hs
  cases hs with
  | performed hf hp => exact hf

theorem eq_of_step_none (h : step m = .ok none m') : m' = m := by
  have hs := step_cases m
  rw [h] at hs
  cases hs <;> rfl

theorem takes_of_fetch {d : Decoded} (h : m.fetch = .ok (some d)) :
    d.mnemonic.Takes d.width d.operands := by
  unfold Machine.fetch at h
  split at h
  · exact (decode_cases h).1
  · cases h

end Action

end Ia32
