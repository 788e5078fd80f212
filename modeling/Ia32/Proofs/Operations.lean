import Ia32.Proofs.Flags
import Ia32.Proofs.Watched

/-!
# Operations on a machine

* `Operation`: whatever can be done to a machine but for loading a program; `Operation.apply`: the
  machine that it leaves, whether it fails or not; `Operation.watch`: the same, unless a sum is not
  a number of 32 bits;
* `Operation.size_apply`, `Operation.program_apply`, `Operation.watch_eq`: what one operation keeps;
* `Pc.Operation`: an operation on a machine, or the loading of a program;
* `Pc.after`, `Pc.watchedAfter`: one operation after the other;
* **`Pc.after_new`**: what holds of a machine whatever has been done to it.
-/

set_option autoImplicit false

namespace Ia32

/-- An operation on a machine. -/
inductive Operation where
  | setProgram (range : AddressRange)
  | step
  | execute (d : Decoded) (h : ∃ bs address, decode bs address = .ok (some d))
  | set (r : Reg) (v : Long)
  | setEip (v : Long)
  | setFlag (flag : Flag) (b : Bool)
  | setFlags (v : Long)
  | push (w : Width) (v : Long)
  | pop (w : Width)
  | read (op : Operand) (w : Width)
  | write (op : Operand) (w : Width) (v : Long)
  | readMemory (address : Long) (w : Width)
  | writeMemory (address : Long) (w : Width) (v : Long)
  | loadMemory (address : Long) (bs : List Byte)

namespace Operation

/-! ## One operation -/

/-- Changes memory, if that succeeds. -/
def changeMemory (f : Memory → Except Fault Memory) : Action Unit := do
  let memory ← Action.look fun m => f m.memory
  modify fun m => { m with memory }

/-- What an operation does. -/
def action : Operation → Action Unit
  | setProgram range => modify fun m => { m with program := range }
  | step => discard Action.step
  | execute d _ => discard (Action.execute d.toInstr)
  | set r v => modify fun m => m.set r v
  | setEip v => modify fun m => m.setEip v
  | setFlag flag b => modify fun m => { m with flags := m.flags.set flag b }
  | setFlags v => modify fun m => { m with flags := .ofBits v }
  | push w v => Action.push w v
  | pop w => discard (Action.pop w)
  | read op w => discard (Action.read op w)
  | write op w v => Action.write op w v
  | readMemory address w => discard (Action.look fun m => m.memory.read address w)
  | writeMemory address w v => changeMemory fun memory => memory.write address w v
  | loadMemory address bs => changeMemory fun memory => memory.load address bs

/-- What an operation does, its sums watched. -/
def watched : Operation → Watched Unit
  | step => discard Watched.step
  | execute d _ => discard (Watched.execute d.toInstr)
  | pop w => discard (Watched.pop w)
  | op => Watched.ofAction op.action

/-- The machine after an operation, whether it has failed or not. -/
def apply (op : Operation) (m : Machine) : Machine :=
  match op.action m with
  | .ok _ m' => m'
  | .error _ m' => m'

/-- The machine after an operation, unless a sum or a difference was not a number of 32 bits. -/
def watch (op : Operation) (m : Machine) : Option Machine :=
  match op.watched m with
  | .ok _ m' => some m'
  | .error (some _) m' => some m'
  | .error none _ => none

/-- Whether an operation is about the program. -/
def setsProgram : Operation → Bool
  | setProgram _ => true
  | _ => false

/-- The range of the program after an operation. -/
def program (m : Machine) : Operation → AddressRange
  | setProgram range => range
  | _ => m.program

variable {op : Operation} {m m' : Machine}

theorem leaves_apply (op : Operation) (m : Machine) : op.action.Leaves m (op.apply m) := by
  unfold apply
  cases h : op.action m with
  | ok x m' => exact .inl ⟨x, h⟩
  | error f m' => exact .inr ⟨f, h⟩

/-! ## What one operation keeps -/

theorem sameFrame_of_looks {α : Type} {a : Action α} (ha : a.Looks) (h : a.Leaves m m') :
    m.SameFrame m' := by
  rw [ha m m' h]
  exact ⟨rfl, rfl⟩

theorem sameFrame_write (op : Operand) (w : Width) (v : Long)
    (h : (Action.write op w v).Leaves m m') : m.SameFrame m' := by
  cases op with
  | reg r => exact (Action.write_obeys Action.rules_sameFrame rfl w v).leaves h
  | mem ref => exact (Action.write_obeys Action.rules_sameFrame rfl w v).leaves h
  | imm n | label name => exact sameFrame_of_looks (Action.looks_throw _) h

theorem sameFrame_perform {i : Instr} (ht : i.mnemonic.Takes i.width i.operands)
    (h : (Action.perform i).Leaves m m') : m.SameFrame m' := by
  refine (Action.perform_obeys Action.rules_sameFrame ht ?_ ?_).leaves h
  · exact fun _ => ⟨trivial, trivial⟩
  · exact fun _ m v => ⟨rfl, rfl⟩

theorem sameFrame_step (h : Action.step.Leaves m m') : m.SameFrame m' := by
  rcases Action.step_leaves h with rfl | ⟨d, hfetch, hperform⟩
  · exact ⟨rfl, rfl⟩
  · have hd := sameFrame_perform (Action.takes_of_fetch hfetch) hperform
    exact ⟨hd.program, hd.size⟩

theorem sameFrame_execute {i : Instr} (ht : i.mnemonic.Takes i.width i.operands)
    (h : (Action.execute i).Leaves m m') : m.SameFrame m' := by
  unfold Action.execute at h
  split at h
  · exact sameFrame_of_looks (Action.looks_pure _) h
  · rcases Action.leaves_bind h with ⟨f, hf⟩ | ⟨u, m₁, hu, hrest⟩
    · exact sameFrame_perform ht (.inr ⟨f, hf⟩)
    · rw [Action.looks_pure true m₁ m' hrest]
      exact sameFrame_perform ht (.inl ⟨u, hu⟩)

theorem leaves_discard {α : Type} {a : Action α} (h : (discard a).Leaves m m') :
    a.Leaves m m' := by
  rcases Action.leaves_bind (k := fun _ => pure ()) h with ⟨f, hf⟩ | ⟨x, m₁, hx, hrest⟩
  · exact .inr ⟨f, hf⟩
  · rw [Action.looks_pure () m₁ m' hrest]
    exact .inl ⟨x, hx⟩

theorem sameFrame_changeMemory {f : Memory → Except Fault Memory}
    (hf : ∀ memory memory', f memory = .ok memory' → memory'.size = memory.size)
    (h : (changeMemory f).Leaves m m') : m.SameFrame m' := by
  rcases Action.leaves_bind h with ⟨e, he⟩ | ⟨memory, m₁, hlook, hrest⟩
  · exact sameFrame_of_looks (Action.looks_look _) (.inr ⟨e, he⟩)
  · rw [Action.look_eq] at hlook
    cases hm : f m.memory with
    | error e =>
      rw [hm] at hlook
      cases hlook
    | ok memory' =>
      rw [hm] at hlook
      cases hlook
      rw [Action.leaves_modify hrest]
      exact ⟨rfl, hf _ _ hm⟩

theorem size_load {memory memory' : Memory} {address : Long} {bs : List Byte}
    (h : memory.load address bs = .ok memory') : memory'.size = memory.size := by
  unfold Memory.load at h
  split at h
  · cases h
    exact Memory.size_store _ _ _
  · cases h

theorem sameFrame_apply (m : Machine) (hop : op.setsProgram = false) :
    m.SameFrame (op.apply m) := by
  have h := op.leaves_apply m
  have hrules := Action.rules_sameFrame
  cases op with
  | setProgram range => cases hop
  | step => exact sameFrame_step (leaves_discard h)
  | execute d hd =>
    obtain ⟨bs, address, hd⟩ := hd
    exact sameFrame_execute (decode_cases hd).1 (leaves_discard h)
  | set r v | setEip v | setFlag flag b | setFlags v => exact ⟨rfl, rfl⟩
  | push w v => exact (Action.push_obeys hrules w v).leaves h
  | pop w => exact (Action.pop_obeys hrules w).leaves (leaves_discard h)
  | read op w => exact sameFrame_of_looks (Action.looks_read op w) (leaves_discard h)
  | write op w v => exact sameFrame_write op w v h
  | readMemory address w => exact sameFrame_of_looks (Action.looks_look _) (leaves_discard h)
  | writeMemory address w v | loadMemory address bs =>
    exact sameFrame_changeMemory (fun _ _ => size_load) h

theorem program_apply (op : Operation) (m : Machine) : (op.apply m).program = op.program m := by
  cases op with
  | setProgram range => rfl
  | _ => exact (sameFrame_apply m rfl).program

theorem size_apply (op : Operation) (m : Machine) :
    (op.apply m).memory.size = m.memory.size := by
  cases op with
  | setProgram range => rfl
  | _ => exact (sameFrame_apply m rfl).size

/-! ## Watched operations -/

theorem watched_agrees (op : Operation) : Watched.Agrees op.watched op.action := by
  cases op with
  | step => exact Watched.step_agrees.bind_ofAction fun _ => rfl
  | execute d h => exact (Watched.execute_agrees d.toInstr).bind_ofAction fun _ => rfl
  | pop w => exact (Watched.pop_agrees w).bind_ofAction fun _ => rfl
  | _ => exact fun _ _ => rfl

theorem watch_eq (op : Operation) {m : Machine} (hm : m.memory.size < 2 ^ 32) :
    op.watch m = some (op.apply m) := by
  unfold watch apply
  rw [op.watched_agrees m hm]
  unfold Watched.ofAction
  cases op.action m <;> rfl

end Operation

theorem Machine.size_new (size : Long) : (new size).memory.size = size.toNat := Array.size_replicate

/-! ## Operations with loading -/

namespace Pc

/-- The memory is as large as it was to be. -/
def Fits (pc : Pc) : Prop := pc.machine.memory.size = pc.memorySize.toNat

/-- An operation on a machine that is set up anew for every program. -/
inductive Operation where
  | load (code : List Byte) (address offset : Long)
  | machine (op : Ia32.Operation)

namespace Operation

/-- What an operation does. A program that cannot be loaded leaves all as it was. -/
def action : Operation → EStateM Fault Pc Unit
  | load code address offset => fun pc =>
    match pc.load code address offset with
    | .ok pc' => .ok () pc'
    | .error f => .error f pc
  | machine op => fun pc =>
    match op.action pc.machine with
    | .ok _ m => .ok () { pc with machine := m }
    | .error f m => .error f { pc with machine := m }

/-- What is left by an operation, whether it has failed or not. -/
def apply (op : Operation) (pc : Pc) : Pc :=
  match op.action pc with
  | .ok _ pc' => pc'
  | .error _ pc' => pc'

/-- What is left by an operation, unless a sum or a difference was not a number of 32 bits. -/
def watch : Operation → Pc → Option Pc
  | load code address offset, pc =>
    match pc.watchedLoad code address offset with
    | .ok pc' => some pc'
    | .error (some _) => some pc
    | .error none => none
  | machine op, pc => (op.watch pc.machine).map fun m => { pc with machine := m }

/-- The range of the program after an operation. -/
def program (pc : Pc) : Operation → AddressRange
  | load code address _ =>
    if address.toNat + code.length ≤ pc.memorySize.toNat then
      ⟨address, address + BitVec.ofNat 32 code.length⟩
    else pc.machine.program
  | machine op => op.program pc.machine

theorem apply_machine (op : Ia32.Operation) (pc : Pc) :
    (machine op).apply pc = { pc with machine := op.apply pc.machine } := by
  unfold apply action Ia32.Operation.apply
  dsimp only
  cases op.action pc.machine <;> rfl

theorem apply_load (code : List Byte) (address offset : Long) (pc : Pc) :
    (load code address offset).apply pc =
      match pc.load code address offset with
      | .ok pc' => pc'
      | .error _ => pc := by
  unfold apply action
  dsimp only
  cases pc.load code address offset <;> rfl

theorem program_apply (op : Operation) (pc : Pc) :
    (op.apply pc).machine.program = op.program pc := by
  cases op with
  | load code address offset =>
    rw [apply_load, Pc.load_eq]
    change _ = if address.toNat + code.length ≤ pc.memorySize.toNat then _ else pc.machine.program
    by_cases hfit : pc.memorySize.toNat < address.toNat + code.length
    · rw [if_pos hfit, if_neg (Nat.not_le.mpr hfit)]
    · rw [if_neg hfit, if_pos (Nat.not_lt.mp hfit)]
      rfl
  | machine op =>
    rw [apply_machine]
    exact op.program_apply pc.machine

theorem memorySize_apply (op : Operation) (pc : Pc) : (op.apply pc).memorySize = pc.memorySize := by
  cases op with
  | load code address offset =>
    rw [apply_load]
    cases h : pc.load code address offset with
    | error f => rfl
    | ok pc' => exact (Pc.loaded_of_load h).memorySize
  | machine op => rw [apply_machine]

theorem fits_apply (op : Operation) {pc : Pc} (hpc : Fits pc) : Fits (op.apply pc) := by
  cases op with
  | load code address offset =>
    rw [apply_load]
    cases h : pc.load code address offset with
    | error f => exact hpc
    | ok pc' =>
      have hloaded := Pc.loaded_of_load h
      exact hloaded.size.trans (congrArg BitVec.toNat hloaded.memorySize.symm)
  | machine op =>
    rw [apply_machine]
    exact (op.size_apply pc.machine).trans hpc

theorem watch_eq (op : Operation) {pc : Pc} (hpc : Fits pc) : op.watch pc = some (op.apply pc) := by
  cases op with
  | load code address offset =>
    unfold watch
    dsimp only
    rw [apply_load, Pc.watchedLoad_eq]
    cases pc.load code address offset <;> rfl
  | machine op =>
    have hsize : pc.machine.memory.size < 2 ^ 32 := hpc.trans_lt pc.memorySize.isLt
    unfold watch
    dsimp only
    rw [apply_machine, op.watch_eq hsize]
    rfl

end Operation

/-! ## One operation after the other -/

/-- What is left by operations, whether they have failed or not. -/
def after (pc : Pc) (ops : List Operation) : Pc := ops.foldl (fun pc op => op.apply pc) pc

/-- What is left by operations, unless a sum or a difference was not a number of 32 bits. -/
def watchedAfter (pc : Pc) (ops : List Operation) : Option Pc :=
  ops.foldlM (fun pc op => op.watch pc) pc

theorem memorySize_after (pc : Pc) (ops : List Operation) :
    (pc.after ops).memorySize = pc.memorySize := by
  induction ops generalizing pc with
  | nil => rfl
  | cons op ops ih => exact (ih (op.apply pc)).trans (op.memorySize_apply pc)

theorem fits_after {pc : Pc} (ops : List Operation) (hpc : Fits pc) :
    Fits (pc.after ops) := by
  induction ops generalizing pc with
  | nil => exact hpc
  | cons op ops ih => exact ih (op.fits_apply hpc)

theorem watchedAfter_eq {pc : Pc} (ops : List Operation) (hpc : Fits pc) :
    pc.watchedAfter ops = some (pc.after ops) := by
  induction ops generalizing pc with
  | nil => rfl
  | cons op ops ih =>
    unfold watchedAfter
    rw [List.foldlM_cons, op.watch_eq hpc]
    exact ih (op.fits_apply hpc)

theorem fits_new (size : Long) : Fits (new size) := Machine.size_new size

theorem places_of_width (w : Width) (x : BitVec 64) :
    Checked.difference w.bits 1 = some (w.bits - 1) ∧
      Checked.extend w.bits x = some ((x.setWidth w.bits).signExtend 64) ∧
      Checked.extend (2 * w.bits) x = some ((x.setWidth (2 * w.bits)).signExtend 64) := by
  have hbits := w.bits_le
  have hpos := w.bits_pos
  refine ⟨Checked.difference_eq (by omega), ?_, ?_⟩
  · exact Checked.extend_eq hpos (by omega) x
  · exact Checked.extend_eq (by omega) (by omega) x

/-- **Whatever has been done to a machine**, and whether it has failed or not: memory is as large as
it was made; of the flags register bit 1 is set, and no bit but those of the flags; flags change by
being written to it, and the program by an operation about it alone. No sum and no difference has
not been a number of 32 bits. -/
theorem after_new (size : Long) (ops : List Operation) :
    let pc := (new size).after ops
    let m := pc.machine
    (pc.memorySize = size ∧ m.memory.size = size.toNat) ∧
    (Flags.IsRegister m.flags.bits ∧
      (∀ flag b, ((Ia32.Operation.setFlag flag b).apply m).flags.bits =
        Flags.write m.flags.bits flag b) ∧
      ∀ v, ((Ia32.Operation.setFlags v).apply m).flags.bits =
        Flag.all.foldl (fun r flag => Flags.write r flag (v.getLsbD flag.bit)) m.flags.bits) ∧
    (∀ op : Operation, (op.apply pc).machine.program = op.program pc) ∧
    (new size).watchedAfter ops = some pc ∧
    ∀ (w : Width) (x : BitVec 64),
      Checked.difference w.bits 1 = some (w.bits - 1) ∧
      Checked.extend w.bits x = some ((x.setWidth w.bits).signExtend 64) ∧
      Checked.extend (2 * w.bits) x = some ((x.setWidth (2 * w.bits)).signExtend 64) := by
  intro pc m
  have hmemory : pc.memorySize = size := memorySize_after _ ops
  have hfits : m.memory.size = pc.memorySize.toNat := fits_after ops (fits_new size)
  refine ⟨⟨hmemory, hfits.trans (congrArg BitVec.toNat hmemory)⟩,
    ⟨m.flags.isRegister_bits, ?_, ?_⟩, fun op => op.program_apply pc,
    watchedAfter_eq ops (fits_new size), places_of_width⟩
  · exact fun flag b => m.flags.bits_set flag b
  · exact fun v => m.flags.bits_ofBits v

end Pc

end Ia32
