import Ia32.Proofs.Control

/-!
# Failures that change nothing

* `Mnemonic.usesStack`: the instructions that move the stack pointer of their own accord;
* `Action.ok_bind_iff`, `Action.error_bind_iff`: one action after another, by how it ends;
* `Action.Looks`, `Action.Succeeds`, `Action.Harmless`: actions that change nothing, that cannot
  fail, and whose failures change nothing; what is put together from them;
* `Action.perform_harmless`: the instructions whose failures change nothing;
* **`failure_changes_nothing`**: unless an instruction uses the stack, a failure leaves the machine
  as it was, and a step that fails only moves the instruction pointer.
-/

set_option autoImplicit false

namespace Ia32

/-- The instructions that move the stack pointer of their own accord. -/
def Mnemonic.usesStack : Mnemonic → Bool
  | push | pop | call => true
  | plain .pushf | plain .popf | plain .pusha | plain .popa | plain .ret => true
  | _ => false

namespace Action

variable {α β : Type} {a : Action α} {k : α → Action β} {m m' : Machine} {f : Fault}

/-! ## One after another -/

theorem ok_bind_iff {y : β} :
    (a >>= k) m = .ok y m' ↔ ∃ x m₁, a m = .ok x m₁ ∧ k x m₁ = .ok y m' := by
  change EStateM.bind a k m = _ ↔ _
  unfold EStateM.bind
  cases a m with
  | ok x m₁ => simp
  | error f' m₁ => simp

theorem error_bind_iff :
    (a >>= k) m = .error f m' ↔
      a m = .error f m' ∨ ∃ x m₁, a m = .ok x m₁ ∧ k x m₁ = .error f m' := by
  change EStateM.bind a k m = _ ↔ _
  unfold EStateM.bind
  cases a m with
  | ok x m₁ => simp
  | error f' m₁ => simp

/-! ## Actions that change nothing, and actions that cannot fail -/

/-- An action leaves the machine as it was, whether it fails or not. -/
def Looks (a : Action α) : Prop := ∀ m m', Leaves a m m' → m' = m

/-- An action cannot fail. -/
def Succeeds (a : Action α) : Prop := ∀ m, ∃ x m', a m = .ok x m'

/-- When an action fails, it leaves the machine as it was. -/
def Harmless (a : Action α) : Prop := ∀ m f m', a m = .error f m' → m' = m

theorem looks_pure (x : α) : Looks (pure x : Action α) := by
  rintro m m' (⟨y, h⟩ | ⟨f, h⟩) <;> cases h
  rfl

theorem looks_get : Looks (get : Action Machine) := by
  rintro m m' (⟨y, h⟩ | ⟨f, h⟩) <;> cases h
  rfl

theorem looks_throw (f : Fault) : Looks (throw f : Action α) := by
  rintro m m' (⟨y, h⟩ | ⟨f, h⟩) <;> cases h
  rfl

theorem Looks.bind (ha : Looks a) (hk : ∀ x, Looks (k x)) : Looks (a >>= k) := by
  intro m m' h
  rcases leaves_bind h with ⟨f, hf⟩ | ⟨x, m₁, hx, h'⟩
  · exact ha m m' (.inr ⟨f, hf⟩)
  · obtain rfl := ha m m₁ (.inl ⟨x, hx⟩)
    exact hk x _ _ h'

theorem Looks.ok_bind {y : β} (ha : Looks a) (h : (a >>= k) m = .ok y m') :
    ∃ x, a m = .ok x m ∧ k x m = .ok y m' := by
  obtain ⟨x, m₁, hx, hy⟩ := ok_bind_iff.mp h
  obtain rfl := ha m m₁ (.inl ⟨x, hx⟩)
  exact ⟨x, hx, hy⟩

theorem looks_look (g : Machine → Except Fault α) : Looks (look g) := by
  refine looks_get.bind fun m => ?_
  cases g m with
  | ok x => exact looks_pure x
  | error e => exact looks_throw e

theorem looks_read (op : Operand) (w : Width) : Looks (read op w) := looks_look _

theorem looks_source (i : Instr) : Looks i.source := by
  unfold Instr.source
  split
  · exact looks_pure _
  · exact looks_throw _

theorem looks_destination (i : Instr) : Looks i.destination := by
  unfold Instr.destination
  split
  · exact looks_pure _
  · exact looks_throw _

theorem succeeds_pure (x : α) : Succeeds (pure x : Action α) := fun m => ⟨x, m, rfl⟩

theorem succeeds_modify (g : Machine → Machine) : Succeeds (modify g : Action PUnit) :=
  fun m => ⟨⟨⟩, g m, rfl⟩

theorem Succeeds.bind (ha : Succeeds a) (hk : ∀ x, Succeeds (k x)) : Succeeds (a >>= k) := by
  intro m
  obtain ⟨x, m₁, hx⟩ := ha m
  obtain ⟨y, m₂, hy⟩ := hk x m₁
  exact ⟨y, m₂, ok_bind_iff.mpr ⟨x, m₁, hx, hy⟩⟩

/-! ## Actions whose failures change nothing -/

theorem Looks.harmless (ha : Looks a) : Harmless a := fun m f m' h => ha m m' (.inr ⟨f, h⟩)

theorem Succeeds.harmless (ha : Succeeds a) : Harmless a := by
  intro m f m' h
  obtain ⟨x, m₁, hx⟩ := ha m
  cases hx.symm.trans h

theorem Looks.bind_harmless (ha : Looks a) (hk : ∀ x, Harmless (k x)) : Harmless (a >>= k) := by
  intro m f m' h
  rcases error_bind_iff.mp h with hf | ⟨x, m₁, hx, h'⟩
  · exact ha m m' (.inr ⟨f, hf⟩)
  · obtain rfl := ha m m₁ (.inl ⟨x, hx⟩)
    exact hk x _ _ _ h'

theorem Harmless.bind_succeeds (ha : Harmless a) (hk : ∀ x, Succeeds (k x)) :
    Harmless (a >>= k) := by
  intro m f m' h
  rcases error_bind_iff.mp h with hf | ⟨x, m₁, -, h'⟩
  · exact ha m f m' hf
  · obtain ⟨y, m₂, hy⟩ := hk x m₁
    cases hy.symm.trans h'

/-! ## Operands and the stack -/

theorem harmless_store (address : Long) (w : Width) (v : Long) : Harmless (store address w v) := by
  refine looks_get.bind_harmless fun m => ?_
  split
  · exact (succeeds_modify _).harmless
  · exact (looks_throw _).harmless

theorem harmless_write (op : Operand) (w : Width) (v : Long) : Harmless (write op w v) := by
  cases op with
  | reg r => exact (succeeds_modify _).harmless
  | mem ref => exact looks_get.bind_harmless fun m => harmless_store _ _ _
  | imm n | label name => exact (looks_throw _).harmless

theorem harmless_pop (w : Width) : Harmless (pop w) := by
  refine looks_get.bind_harmless fun m => looks_get.bind_harmless fun _ => ?_
  dsimp only
  split
  · exact (looks_throw _).harmless
  · refine (looks_look _).bind_harmless fun v => ?_
    exact ((succeeds_modify _).bind fun _ => succeeds_pure v).harmless

/-! ## Groups of instructions -/

variable (i : Instr)

theorem harmless_mov : Harmless (mov i) := by
  refine (looks_source i).bind_harmless fun src => (looks_read src _).bind_harmless fun v => ?_
  exact (looks_destination i).bind_harmless fun dst => harmless_write dst _ v

theorem harmless_lea : Harmless (lea i) := by
  refine (looks_source i).bind_harmless fun src => ?_
  cases src with
  | mem ref =>
    refine looks_get.bind_harmless fun m => ?_
    exact (looks_destination i).bind_harmless fun dst => harmless_write dst _ _
  | reg r | imm n | label name => exact (looks_throw _).harmless

theorem harmless_alu (op : AluOp) : Harmless (alu op i) := by
  refine (looks_destination i).bind_harmless fun dst => ?_
  refine (looks_source i).bind_harmless fun src => (looks_read src _).bind_harmless fun b => ?_
  refine (looks_read dst _).bind_harmless fun a => looks_get.bind_harmless fun m => ?_
  dsimp only
  split
  · exact (harmless_write dst _ _).bind_succeeds fun _ => succeeds_modify _
  · exact (succeeds_modify _).harmless

theorem harmless_test : Harmless (test i) := by
  refine (looks_destination i).bind_harmless fun dst => ?_
  refine (looks_source i).bind_harmless fun src => (looks_read src _).bind_harmless fun b => ?_
  exact (looks_read dst _).bind_harmless fun a => (succeeds_modify _).harmless

theorem harmless_replace (g : Long → Width → Long × FlagUpdate) : Harmless (replace g i) := by
  refine (looks_destination i).bind_harmless fun dst => (looks_read dst _).bind_harmless fun a => ?_
  exact (harmless_write dst _ _).bind_succeeds fun _ => succeeds_modify _

theorem harmless_multiply (g : Long → Long → Width → Long × Long × Bool) :
    Harmless (multiply g i) := by
  refine (looks_destination i).bind_harmless fun dst => (looks_read dst _).bind_harmless fun b => ?_
  refine looks_get.bind_harmless fun m => ?_
  exact ((succeeds_modify _).bind fun _ => succeeds_modify _).harmless

/-- A division fails before it has written one of its two results. -/
theorem harmless_divide (g : Nat → Long → Width → Except Fault (Long × Long)) :
    Harmless (divide g i) := by
  refine (looks_destination i).bind_harmless fun dst => ?_
  refine (looks_read dst _).bind_harmless fun divisor => ?_
  split
  · exact (looks_throw _).harmless
  · refine looks_get.bind_harmless fun m => ?_
    dsimp only
    split
    · exact (succeeds_modify _).harmless
    · exact (looks_throw _).harmless

theorem harmless_unary (op : UnaryOp) : Harmless (unary op i) := by
  cases op with
  | not => exact harmless_replace i complement
  | neg => exact harmless_replace i Alu.neg
  | mul => exact harmless_multiply i product
  | imul => exact harmless_multiply i signedProduct
  | div => exact harmless_divide i quotient
  | idiv => exact harmless_divide i signedQuotient

theorem harmless_shift (op : ShiftOp) : Harmless (shift op i) := by
  have hrest : ∀ (dst : Operand) (count : Long), Harmless (do
      let a ← read dst i.width
      let r := Alu.shift op a (count.toNat % 32) (← get).flags.carry i.width
      write dst i.width r.1
      update r.2) := by
    intro dst count
    refine (looks_read dst _).bind_harmless fun a => looks_get.bind_harmless fun m => ?_
    exact (harmless_write dst _ _).bind_succeeds fun _ => succeeds_modify _
  refine (looks_destination i).bind_harmless fun dst => ?_
  dsimp only
  split
  · exact hrest dst 1
  · refine (looks_source i).bind_harmless fun src => ?_
    exact (looks_read src _).bind_harmless (hrest dst)

theorem harmless_jump : Harmless (jump i) := by
  refine (looks_destination i).bind_harmless fun dst => ?_
  exact (looks_read dst _).bind_harmless fun target => (succeeds_modify _).harmless

theorem harmless_jumpIf (c : Cond) : Harmless (jumpIf c i) := by
  refine looks_get.bind_harmless fun m => ?_
  split
  · exact harmless_jump i
  · exact (looks_pure _).harmless

theorem harmless_ret : Harmless ret := (harmless_pop .long).bind_succeeds fun _ => succeeds_modify _

theorem harmless_popFlags (w : Width) : Harmless (popFlags w) :=
  (harmless_pop w).bind_succeeds fun _ => succeeds_modify _

/-! ## All instructions -/

variable {i}

/-- **A failure changes nothing**, if the instruction does not use the stack or only takes a value
off it that cannot be lost: a return address or flags. -/
theorem perform_harmless
    (h : i.mnemonic.usesStack = true → i.mnemonic = .plain .ret ∨ i.mnemonic = .plain .popf) :
    Harmless (perform i) := by
  obtain ⟨mnemonic, w, ops⟩ := i
  rw [perform_eq]
  cases mnemonic with
  | mov => exact harmless_mov _
  | lea => exact harmless_lea _
  | alu op => exact harmless_alu _ op
  | test => exact harmless_test _
  | unary op => exact harmless_unary _ op
  | inc => exact harmless_replace _ Alu.inc
  | dec => exact harmless_replace _ Alu.dec
  | shift op => exact harmless_shift _ op
  | jmp => exact harmless_jump _
  | jcc c => exact harmless_jumpIf _ c
  | push | pop | call => simp [Mnemonic.usesStack] at h
  | plain op =>
    cases op with
    | ret => exact harmless_ret
    | popf => exact harmless_popFlags w
    | pushf | pusha | popa => simp [Mnemonic.usesStack] at h
    | nop => exact (succeeds_pure _).harmless
    | stc | clc | cmc | std | cld | sti | cli | lahf | sahf => exact (succeeds_modify _).harmless

theorem execute_harmless (h : Harmless (perform i)) : Harmless (execute i) := by
  unfold execute
  split
  · exact (succeeds_pure _).harmless
  · exact h.bind_succeeds fun _ => succeeds_pure _

end Action

/-! ## Failing steps -/

/-- **Unless an instruction uses the stack, a failure changes nothing**; `ret` may use it, too. Of
the steps that fail, those that find no instruction change nothing at all, and those whose
instruction is such a one move the instruction pointer past it and change nothing else. -/
theorem failure_changes_nothing :
    (∀ i : Instr, (i.mnemonic.usesStack = true → i.mnemonic = .plain .ret) →
      ∀ m f m', Action.execute i m = .error f m' → m' = m) ∧
    ∀ m f m', Action.step m = .error f m' →
      m.fetch = .error f ∧ m' = m ∨
      ∃ d, m.fetch = .ok (some d) ∧
        ((d.mnemonic.usesStack = true → d.mnemonic = .plain .ret) → m' = m.setEip d.next) := by
  refine ⟨fun i hi => ?_, fun m f m' h => ?_⟩
  · exact Action.execute_harmless (Action.perform_harmless fun hs => .inl (hi hs))
  · have hs := Action.step_cases m
    rw [h] at hs
    cases hs with
    | unfetched hf => exact .inl ⟨hf, rfl⟩
    | failed hf hp =>
      refine .inr ⟨_, hf, fun hd => ?_⟩
      exact Action.perform_harmless (fun hs => .inl (hd hs)) _ _ _ hp

/-- A machine about to move `eax` to the address in `ebx`, which lies outside its memory. -/
def strayMove : Machine where
  registers := { general := (Vector.replicate 8 0).set Reg.ebx.slot 0x100 }
  memory := ⟨#[0x89, 0x03]⟩
  program := ⟨0, 2⟩

theorem fetch_strayMove : strayMove.fetch =
    .ok (some ⟨⟨.mov, .long, [.reg .eax, .mem { base := some .ebx }]⟩, 0, 2⟩) := by
  decide +kernel

/-- The move is not made, and nor is a return from an empty stack. -/
theorem failure_changes_nothing_strayMove :
    (∃ f m', Action.step strayMove = .error f m' ∧ m' = strayMove.setEip 2) ∧
    ∃ f m', Action.execute ⟨.plain .ret, .long, []⟩ strayMove = .error f m' ∧ m' = strayMove := by
  have hstep : Action.step strayMove =
      .error (.illegalAccess 0x100 4) (strayMove.setEip 2) := by
    rw [Action.step_eq, fetch_strayMove]
    rfl
  have hret : Action.execute ⟨.plain .ret, .long, []⟩ strayMove =
      .error .stackUnderflow strayMove := rfl
  refine ⟨⟨_, _, hstep, ?_⟩, _, _, hret, ?_⟩
  · rcases failure_changes_nothing.2 _ _ _ hstep with ⟨herror, -⟩ | ⟨d, hd, hsame⟩
    · cases fetch_strayMove.symm.trans herror
    · cases fetch_strayMove.symm.trans hd
      exact hsame (by decide)
  · exact failure_changes_nothing.1 _ (by decide) _ _ _ hret

end Ia32
