import Ia32.Proofs.Halves

/-!
# Operands replaced by results

* `Action.put`: gives an operand a result, and sets the flags that come with it;
* **`Action.execute_alu`**, **`Action.replace_bind`**: operations of two operands, and of one, do
  so with what they read; `Action.execute_cmp`: a comparison sets flags alone;
* `Action.keepCarry`, `Action.keepCarry_put`: the carry flag put back after that;
* `Action.replace_one`: an operation with one that sets no carry.
-/

set_option autoImplicit false

namespace Ia32

namespace Action

variable {α : Type} {m m' : Machine} {w : Width} {op src dst : Operand} {a b v : Long}

/-! ## Operands that cannot be read or written -/

theorem read_bind_error {f : Fault} (h : m.readOperand op w = .error f) (k : Long → Action α) :
    (read op w >>= k) m = .error f m :=
  error_bind_iff.mpr (.inl (read_error_iff.mpr ⟨h, rfl⟩))

theorem flags_of_write {u : Unit} (h : write op w v m = .ok u m') : m'.flags = m.flags := by
  cases op with
  | reg r =>
    cases h
    rfl
  | mem ref =>
    have hstore := (store_eq (m.effectiveAddress ref) w (v &&& w.mask) m).symm.trans h
    split at hstore
    · cases hstore
      rfl
    · cases hstore
  | imm n | label name => cases h

/-! ## Results -/

/-- Gives an operand a result, and sets the flags. -/
def put (op : Operand) (w : Width) (r : Long × FlagUpdate) : Action Bool := do
  write op w r.1
  update r.2
  return true

theorem put_eq (op : Operand) (r : Long × FlagUpdate) (m : Machine) : put op w r m =
    match write op w r.1 m with
    | .ok _ m' => .ok true { m' with flags := r.2.apply m'.flags }
    | .error f m' => .error f m' := by
  change EStateM.bind (write op w r.1) _ m = _
  unfold EStateM.bind
  cases write op w r.1 m <;> rfl

/-- **An operation of two operands**, all but a comparison, replaces the second. -/
theorem execute_alu {o : AluOp} (ho : o ≠ .cmp) (hb : m.readOperand src w = .ok b) :
    execute ⟨.alu o, w, [src, dst]⟩ m =
      (read dst w >>= fun a => put dst w (aluResult o a b m.flags.carry w)) m := by
  have hsrc : (⟨.alu o, w, [src, dst]⟩ : Instr).source = pure src := Instr.source_eq rfl
  have hdst : (⟨.alu o, w, [src, dst]⟩ : Instr).destination = pure dst := Instr.destination_eq rfl
  rw [execute_eq rfl]
  change (alu o ⟨.alu o, w, [src, dst]⟩ >>= fun _ => pure true) m = _
  rw [alu, hsrc, hdst, pure_bind, pure_bind, bind_assoc, read_bind hb, bind_assoc]
  cases ha : m.readOperand dst w with
  | error f => rw [read_bind_error ha, read_bind_error ha]
  | ok a =>
    rw [read_bind ha, read_bind ha]
    change ((if o ≠ .cmp then write dst w _ >>= fun _ => update _ else update _) >>=
      fun _ => pure true) m = _
    rw [if_pos ho, bind_assoc]
    rfl

theorem execute_cmp (hb : m.readOperand src w = .ok b) (ha : m.readOperand dst w = .ok a) :
    execute ⟨.alu .cmp, w, [src, dst]⟩ m =
      .ok true { m with flags := (Alu.sub a b false w).2.apply m.flags } := by
  have hsrc : (⟨.alu .cmp, w, [src, dst]⟩ : Instr).source = pure src := Instr.source_eq rfl
  have hdst : (⟨.alu .cmp, w, [src, dst]⟩ : Instr).destination = pure dst :=
    Instr.destination_eq rfl
  rw [execute_eq rfl]
  change (alu .cmp ⟨.alu .cmp, w, [src, dst]⟩ >>= fun _ => pure true) m = _
  rw [alu, hsrc, hdst, pure_bind, pure_bind, bind_assoc, read_bind hb, bind_assoc, read_bind ha]
  rfl

/-- **An operation of one operand** replaces it. -/
theorem replace_bind {i : Instr} (hi : i.destination? = some op)
    (f : Long → Width → Long × FlagUpdate) : (replace f i >>= fun _ => pure true) =
      read op i.width >>= fun a => put op i.width (f a i.width) := by
  rw [replace, Instr.destination_eq hi, pure_bind, bind_assoc]
  exact congrArg _ (funext fun a => bind_assoc _ _ _)

/-! ## The carry flag kept -/

/-- Does something, and puts the carry flag back to what it was. -/
def keepCarry (act : Action α) : Action α := do
  let carry := (← get).flags.carry
  let x ← act
  modify fun m => { m with flags := { m.flags with carry } }
  return x

theorem keepCarry_eq (act : Action α) (m : Machine) : keepCarry act m =
    match act m with
    | .ok x m' => .ok x { m' with flags := { m'.flags with carry := m.flags.carry } }
    | .error f m' => .error f m' := by
  change EStateM.bind act _ m = _
  unfold EStateM.bind
  cases act m <;> rfl

theorem keepCarry_put (op : Operand) (r : Long × FlagUpdate) (m : Machine) :
    keepCarry (put op w r) m = put op w (r.1, { r.2 with carry := none }) m := by
  rw [keepCarry_eq, put_eq, put_eq]
  cases hwrite : write op w r.1 m with
  | error f m' => rfl
  | ok u m' =>
    rw [← flags_of_write hwrite]
    rfl

/-- An operation with one that sets no carry is that operation with the carry put back. -/
theorem replace_one {o : AluOp} (ho : o ≠ .cmp) {f : Long → Width → Long × FlagUpdate}
    (hf : ∀ a carry, f a w =
      ((aluResult o a 1 carry w).1, { (aluResult o a 1 carry w).2 with carry := none })) :
    (read op w >>= fun a => put op w (f a w)) =
      keepCarry (execute ⟨.alu o, w, [.imm 1, op]⟩) := by
  funext m
  have hone : m.readOperand (.imm 1) w = .ok 1 := by cases w <;> rfl
  rw [keepCarry_eq, execute_alu ho hone]
  cases ha : m.readOperand op w with
  | error e => rw [read_bind_error ha, read_bind_error ha]
  | ok a => rw [read_bind ha, read_bind ha, hf a m.flags.carry, ← keepCarry_put, keepCarry_eq]

end Action

end Ia32
