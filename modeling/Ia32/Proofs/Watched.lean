import Ia32.Proofs.Harmless
import Ia32.Proofs.WideShift

/-!
# Sums that are watched

Where a stack pointer moves up, where a program is loaded, and where the places of a shift are
reckoned, numbers of 32 bits are added and subtracted on the understanding that the result is one,
too. Here such a step stops everything if it is not.

* `Pc.load_eq`: a program loaded; `Pc.watchedLoad`, `Pc.watchedLoad_eq`: its end is watched;
* `Watched`: actions that can stop so; `Watched.ofAction`, `Watched.ofOption`: those that cannot,
  and numbers that are there or not;
* `Watched.pop`, `Watched.shift`, …, `Watched.perform`, `Watched.step`: instructions and steps;
* `Watched.Agrees`: nothing stops, and all else is as without watching, in a memory that addresses
  of 32 bits can cover; **`Watched.perform_agrees`**, **`Watched.step_agrees`**: so it is.
-/

set_option autoImplicit false

namespace Ia32

/-! ## Programs that are loaded -/

theorem Memory.load_zeros {size : Nat} {address : Long} {bs : List Byte}
    (h : address.toNat + bs.length ≤ size) :
    (zeros size).load address bs = .ok ((zeros size).store address bs) := by
  have hcovers : (zeros size).covers address bs.length = true := by
    refine decide_eq_true ?_
    change _ ≤ (Array.replicate size (0 : Byte)).size
    rwa [Array.size_replicate]
  exact if_pos hcovers

/-- **A program is loaded** if it fits in memory. -/
theorem Pc.load_eq (pc : Pc) (code : List Byte) (address offset : Long) :
    pc.load code address offset =
      if pc.memorySize.toNat < address.toNat + code.length then .error .codeTooLarge
      else
        let fresh : Machine :=
          { memory := (Memory.zeros pc.memorySize.toNat).store address code
            program := ⟨address, address + BitVec.ofNat 32 code.length⟩ }
        .ok ⟨pc.memorySize, (fresh.setEip (address + offset)).set .esp pc.memorySize⟩ := by
  unfold load Machine.new
  by_cases hfit : pc.memorySize.toNat < address.toNat + code.length
  · rw [if_pos hfit, if_pos hfit]
    rfl
  · rw [if_neg hfit, if_neg hfit, Memory.load_zeros (by omega)]
    rfl

/-! ## Watched actions -/

/-- An action that stops where a sum or a difference is not a number of 32 bits. -/
abbrev Watched := EStateM (Option Fault) Machine

namespace Watched

variable {α β : Type}

/-- An action without such sums. -/
def ofAction (a : Action α) : Watched α := fun m =>
  match a m with
  | .ok x m' => .ok x m'
  | .error f m' => .error (some f) m'

/-- A number, if there is one. -/
def ofOption : Option α → Watched α
  | some x => return x
  | none => throw none

/-! ## Actions that add or subtract -/

/-- Takes a value off the stack. -/
def pop (w : Width) : Watched Long := do
  let esp := (← get).get .esp
  if !(← get).memory.covers esp w.bytes then throw (some .stackUnderflow)
  let v ← ofAction (Action.look fun m => m.memory.read esp w)
  let above ← ofOption (Checked.sum esp.toNat w.bytes)
  modify fun m => m.set .esp (BitVec.ofNat 32 above)
  return v

/-- `pop` into an operand. -/
def popOperand (i : Instr) : Watched Unit := do
  let v ← pop i.width
  ofAction (do Action.write (← i.destination) i.width v)

/-- Pops values into registers, all but the stack pointer. -/
def popInto (w : Width) : List (BitVec 3) → Watched Unit
  | [] => return
  | c :: cs => do
    let v ← pop w
    if c ≠ Reg.esp.code then modify fun m => m.set ⟨w, c⟩ v
    popInto w cs

/-- `popf`. -/
def popFlags (w : Width) : Watched Unit := do
  let v ← pop w
  modify fun m => { m with flags := .ofBits ((m.flags.bits &&& ~~~w.mask) ||| v) }

/-- `ret`. -/
def ret : Watched Unit := do
  let target ← pop .long
  modify fun m => m.setEip target

/-- Shifts and rotations, in 64 bits. -/
def shift (op : ShiftOp) (i : Instr) : Watched Unit := do
  let dst ← ofAction i.destination
  let count ← if i.operands.length = 1 then pure 1
    else ofAction (Action.read (← ofAction i.source) .byte)
  let a ← ofAction (Action.read dst i.width)
  let carry := (← get).flags.carry
  let (res, flags) ← ofOption (Checked.shift op a (count.toNat % 32) carry i.width)
  ofAction (Action.write dst i.width res)
  ofAction (Action.update flags)

/-- The effect of an instruction. -/
def perform (i : Instr) : Watched Unit :=
  match i.mnemonic with
  | .pop => popOperand i
  | .shift op => shift op i
  | .plain .popf => popFlags i.width
  | .plain .popa => popInto i.width Action.pushOrder.reverse
  | .plain .ret => ret
  | _ => ofAction (Action.perform i)

/-- Executes an instruction. -/
def execute (i : Instr) : Watched Bool := do
  if Action.isStop i then return false
  perform i
  return true

/-- Executes the instruction at the instruction pointer. -/
def step : Watched (Option Decoded) := do
  match ← ofAction (Action.look Machine.fetch) with
  | none => return none
  | some d =>
    if Action.isStop d.toInstr then return none
    modify fun m => m.setEip d.next
    perform d.toInstr
    return some d

/-! ## Agreement -/

/-- In a memory that addresses can cover, nothing stops, and all else is as without watching. -/
def Agrees (wa : Watched α) (a : Action α) : Prop :=
  ∀ m : Machine, m.memory.size < 2 ^ 32 → wa m = ofAction a m

/-- An action leaves as much memory as there was. -/
def KeepsSize (a : Action α) : Prop := ∀ m x m', a m = .ok x m' → m'.memory.size = m.memory.size

variable {a : Action α} {k : α → Action β} {wa : Watched α} {wk : α → Watched β}

theorem ofAction_bind (a : Action α) (k : α → Action β) :
    ofAction (a >>= k) = ofAction a >>= fun x => ofAction (k x) := by
  funext m
  change (match EStateM.bind a k m with
    | .ok y m' => .ok y m'
    | .error f m' => .error (some f) m') = EStateM.bind (ofAction a) _ m
  unfold EStateM.bind ofAction
  cases a m <;> rfl

theorem agrees_ofAction (a : Action α) : Agrees (ofAction a) a := fun _ _ => rfl

theorem agrees_pure (x : α) : Agrees (pure x) (pure x) := fun _ _ => rfl

theorem agrees_modify (g : Machine → Machine) :
    Agrees (modify g : Watched PUnit) (modify g : Action PUnit) := fun _ _ => rfl

/-- **One part after the other.** -/
theorem Agrees.bind (ha : Agrees wa a) (hsize : KeepsSize a) (hk : ∀ x, Agrees (wk x) (k x)) :
    Agrees (wa >>= wk) (a >>= k) := by
  intro m hm
  rw [ofAction_bind]
  change EStateM.bind wa wk m = EStateM.bind (ofAction a) _ m
  unfold EStateM.bind
  rw [ha m hm]
  unfold ofAction
  cases hx : a m with
  | error f m' => rfl
  | ok x m' => exact hk x m' ((hsize m x m' hx).trans_lt hm)

theorem Agrees.bind_ofAction (ha : Agrees wa a) (hk : ∀ x, wk x = ofAction (k x)) :
    Agrees (wa >>= wk) (a >>= k) := by
  intro m hm
  rw [ofAction_bind, ← funext hk]
  change EStateM.bind wa wk m = EStateM.bind (ofAction a) wk m
  unfold EStateM.bind
  rw [ha m hm]

theorem KeepsSize.of_looks (ha : a.Looks) : KeepsSize a := by
  intro m x m' h
  rw [ha m m' (.inl ⟨x, h⟩)]

theorem KeepsSize.of_obeys (ha : Action.Obeys (fun _ => True) Machine.SameFrame a) :
    KeepsSize a := fun _ _ _ h => (ha.ok h).size

/-! ## Sums -/

/-- What is taken off the stack lies in memory, and so its end is an address or the next number. -/
theorem pop_agrees (w : Width) : Agrees (pop w) (Action.pop w) := by
  intro m hm
  change (if (!m.memory.covers (m.get .esp) w.bytes) = true then throw (some .stackUnderflow)
    else do
      let v ← ofAction (Action.look fun m' => m'.memory.read (m.get .esp) w)
      let above ← ofOption (Checked.sum (m.get .esp).toNat w.bytes)
      modify fun m' => m'.set .esp (BitVec.ofNat 32 above)
      return v : Watched Long) m = _
  unfold ofAction
  rw [Action.pop_eq, Memory.read]
  cases hc : m.memory.covers (m.get .esp) w.bytes with
  | false => rfl
  | true =>
    have hend : (m.get .esp).toNat + w.bytes ≤ m.memory.size := of_decide_eq_true hc
    have hsum := Checked.sum_eq (hend.trans_lt hm)
    have hesp : BitVec.ofNat 32 ((m.get .esp).toNat + w.bytes) =
        m.get .esp + BitVec.ofNat 32 w.bytes := by
      rw [BitVec.ofNat_add, BitVec.ofNat_toNat, BitVec.setWidth_eq]
    rw [hsum]
    change EStateM.bind (ofAction (Action.look fun m' => m'.memory.read (m.get .esp) w)) _ m = _
    unfold EStateM.bind ofAction
    rw [Action.look_eq, Memory.read, if_pos hc, ← hesp]
    rfl

theorem shift_agrees (op : ShiftOp) (i : Instr) : Agrees (shift op i) (Action.shift op i) := by
  have hrest : ∀ (dst : Operand) (count : Long), Agrees (do
      let a ← ofAction (Action.read dst i.width)
      let carry := (← get).flags.carry
      let (res, flags) ← ofOption (Checked.shift op a (count.toNat % 32) carry i.width)
      ofAction (Action.write dst i.width res)
      ofAction (Action.update flags)) (do
      let a ← Action.read dst i.width
      let (res, flags) := Alu.shift op a (count.toNat % 32) (← get).flags.carry i.width
      Action.write dst i.width res
      Action.update flags) := by
    intro dst count
    refine (agrees_ofAction _).bind (.of_looks (Action.looks_read dst _)) fun a => ?_
    refine (agrees_ofAction _).bind (.of_looks Action.looks_get) fun m => ?_
    dsimp only
    rw [Checked.shift_eq]
    exact (agrees_ofAction _).bind_ofAction fun _ => rfl
  refine (agrees_ofAction _).bind (.of_looks (Action.looks_destination i)) fun dst => ?_
  dsimp only
  split
  · exact hrest dst 1
  · refine (agrees_ofAction _).bind (.of_looks (Action.looks_source i)) fun src => ?_
    exact (agrees_ofAction _).bind (.of_looks (Action.looks_read src _)) (hrest dst)

/-! ## Instructions -/

theorem popOperand_agrees (i : Instr) : Agrees (popOperand i) (Action.popOperand i) :=
  (pop_agrees _).bind_ofAction fun _ => rfl

theorem popFlags_agrees (w : Width) : Agrees (popFlags w) (Action.popFlags w) :=
  (pop_agrees w).bind_ofAction fun _ => rfl

theorem ret_agrees : Agrees ret Action.ret := (pop_agrees .long).bind_ofAction fun _ => rfl

theorem popInto_agrees (w : Width) (cs : List (BitVec 3)) :
    Agrees (popInto w cs) (Action.popInto w cs) := by
  induction cs with
  | nil => exact agrees_pure ()
  | cons c cs ih =>
    refine (pop_agrees w).bind (.of_obeys (Action.pop_obeys Action.rules_sameFrame w)) fun v => ?_
    dsimp only
    split
    · refine (agrees_modify _).bind (.of_obeys ?_) fun _ => ih
      exact Action.obeys_modify fun m => Action.rules_sameFrame.set m _ _
    · exact ih

/-- **An instruction** does what it does without watching. -/
theorem perform_agrees (i : Instr) : Agrees (perform i) (Action.perform i) := by
  obtain ⟨mnemonic, w, ops⟩ := i
  cases mnemonic with
  | pop => exact popOperand_agrees _
  | shift op => exact shift_agrees op _
  | plain op =>
    cases op with
    | popf => exact popFlags_agrees w
    | popa => exact popInto_agrees w _
    | ret => exact ret_agrees
    | _ => exact fun _ _ => rfl
  | _ => exact fun _ _ => rfl

theorem execute_agrees (i : Instr) : Agrees (execute i) (Action.execute i) := by
  unfold execute Action.execute
  split
  · exact agrees_pure _
  · exact (perform_agrees i).bind_ofAction fun _ => rfl

/-- **So does a step.** -/
theorem step_agrees : Agrees step Action.step := by
  refine (agrees_ofAction _).bind (.of_looks (Action.looks_look _)) fun fetched => ?_
  cases fetched with
  | none => exact agrees_pure _
  | some d =>
    dsimp only
    split
    · exact agrees_pure _
    · refine (agrees_modify _).bind (.of_obeys ?_) fun _ => ?_
      · exact Action.obeys_modify fun m => ⟨rfl, rfl⟩
      · exact (perform_agrees d.toInstr).bind_ofAction fun _ => rfl

end Watched

/-! ## Loading a program -/

namespace Pc

/-- Loads a program. Its length is taken modulo 2 ^ 32, and its end is watched. -/
def watchedLoad (pc : Pc) (code : List Byte) (address offset : Long) :
    Except (Option Fault) Pc := do
  if pc.memorySize.toNat < address.toNat + code.length then throw (some .codeTooLarge)
  let memory ← ((Machine.new pc.memorySize).memory.load address code).mapError some
  let some finish := Checked.sum address.toNat (code.length % 2 ^ 32) | throw none
  let fresh : Machine := { memory, program := ⟨address, BitVec.ofNat 32 finish⟩ }
  return ⟨pc.memorySize, (fresh.setEip (address + offset)).set .esp pc.memorySize⟩

theorem watchedLoad_eq (pc : Pc) (code : List Byte) (address offset : Long) :
    pc.watchedLoad code address offset = (pc.load code address offset).mapError some := by
  have hsize := pc.memorySize.isLt
  rw [load_eq]
  unfold watchedLoad Machine.new
  by_cases hfit : pc.memorySize.toNat < address.toNat + code.length
  · rw [if_pos hfit, if_pos hfit]
    rfl
  · have hlength : code.length % 2 ^ 32 = code.length := Nat.mod_eq_of_lt (by omega)
    have hsum : Checked.sum address.toNat code.length = some (address.toNat + code.length) :=
      Checked.sum_eq (by omega)
    have hfinish : BitVec.ofNat 32 (address.toNat + code.length) =
        address + BitVec.ofNat 32 code.length := by
      rw [BitVec.ofNat_add, BitVec.ofNat_toNat, BitVec.setWidth_eq]
    rw [if_neg hfit, if_neg hfit, hlength, hsum, Memory.load_zeros (by omega), ← hfinish]
    rfl

end Pc

end Ia32
