import Ia32.Proofs.Control
import Ia32.Proofs.Roundtrip

/-!
# Runs of programs

* `Program.IsPlace`: the starts of the statements and the end; `Program.Reaches`: the runs that
  leave the program as it is and return to such places only;
* `Program.Running`: a machine that runs a program; `Running.of_load`: at first it does;
* `Running.fetch`: what is fetched is a statement, in canonical form;
* `Running.step`, `Running.reaches`: **the machine goes on to run the program**;
* `Reaches.run`, `Reaches.run_ends`: where a number of steps leads, and how it ends;
* **`run_assembled`**: running assembled code is running the source.
-/

set_option autoImplicit false

namespace Ia32

namespace Program

/-! ## Places and runs -/

/-- An address is a place of a program that lies in memory: the start of a statement, or the
end. -/
def IsPlace (p : Program) (load a : Long) : Prop :=
  (∃ (k : Nat) (start : Long), p.layout.starts[k]? = some start ∧ a = load + start) ∨
    a = load + BitVec.ofNat 32 p.code.length

/-- A program that holds instructions only. -/
def IsCode (p : Program) : Prop := ∀ e ∈ p.entries, ∃ i, e.statement = .instruction i

/-- A run of a program that lies in memory: any number of steps, each of which may fail, but
changes no byte of the program. What a `ret` takes off the stack is a place of the program. -/
inductive Reaches (p : Program) (load : Long) (m : Machine) : Machine → Prop where
  | refl : Reaches p load m m
  | step {m₁ m₂ : Machine} (h : Reaches p load m m₁) (hstep : Action.step.Leaves m₁ m₂)
      (hcode : m₂.memory.window load p.code.length = m₁.memory.window load p.code.length)
      (hret : ∀ d, m₁.fetch = .ok (some d) → d.mnemonic = .plain .ret →
        ∀ v, m₁.memory.read (m₁.get .esp) .long = .ok v → p.IsPlace load v) :
      Reaches p load m m₂

/-- A machine that runs a program: it has the program in memory, and is at a place of it. -/
structure Running (p : Program) (load : Long) (m : Machine) : Prop where
  fits : load.toNat + p.code.length < 2 ^ 32
  program : m.program = ⟨load, load + BitVec.ofNat 32 p.code.length⟩
  code : m.memory.window load p.code.length = p.code
  place : ∃ k, m.eip = load + p.layout.addressOf k

namespace Assembled

variable {p : Program} {load a : Long} {k : Nat} {e : Entry} {i : Instruction}

theorem addressOf_end (h : p.Assembled) (hk : p.entries.length ≤ k) :
    p.layout.addressOf k = BitVec.ofNat 32 p.code.length := by
  rw [p.layout.addressOf_eq, p.layout.offset_of_length_le (by rwa [h.length_lengths]),
    h.length_code]

theorem addressOf_succ (h : p.Assembled) (hk : p.entries[k]? = some e) :
    p.layout.addressOf (k + 1) = p.layout.addressOf k + BitVec.ofNat 32 e.code.length := by
  rw [p.layout.addressOf_eq, p.layout.addressOf_eq, p.layout.offset_succ (h.lengths_getElem? hk),
    BitVec.ofNat_add]

theorem isPlace_iff (h : p.Assembled) :
    p.IsPlace load a ↔ ∃ k, a = load + p.layout.addressOf k := by
  constructor
  · rintro (⟨k, start, hk, rfl⟩ | rfl)
    · exact ⟨k, by rw [Layout.addressOf, hk, Option.getD_some]⟩
    · exact ⟨p.entries.length, by rw [h.addressOf_end le_rfl]⟩
  · rintro ⟨k, rfl⟩
    by_cases hk : k < p.entries.length
    · exact .inl ⟨k, _, p.layout.starts_getElem? (by rwa [h.length_lengths]), rfl⟩
    · exact .inr (by rw [h.addressOf_end (by omega)])

theorem exists_entryPoint (p : Program) : ∃ k, p.entryPoint = p.layout.addressOf k := by
  unfold entryPoint
  cases hstart : p.layout.resolve "start" with
  | ok a =>
    obtain ⟨k, -, hk⟩ := Layout.resolve_ok_iff.mp hstart
    exact ⟨k, hk.symm⟩
  | error c =>
    cases hstart' : p.layout.resolve "_start" with
    | ok a =>
      obtain ⟨k, -, hk⟩ := Layout.resolve_ok_iff.mp hstart'
      exact ⟨k, hk.symm⟩
    | error c => exact ⟨0, by rw [p.layout.addressOf_eq, p.layout.offset_zero]; rfl⟩

theorem length_code_bounds (h : p.Assembled) (hk : p.entries[k]? = some e)
    (hi : e.statement = .instruction i) : 1 ≤ e.code.length ∧ e.code.length ≤ 7 :=
  have hwf := h.wellFormed hk hi
  hwf.length_bounds (hwf.bytes_length (h.instruction_bytes hk hi))

theorem decode_drop (h : p.Assembled) (hk : p.entries[k]? = some e)
    (hi : e.statement = .instruction i) (load : Long) (rest : List Byte) :
    decode ((p.code.drop (p.layout.offset k) ++ rest).take windowLength)
        (load + p.layout.addressOf k) =
      .ok (some { i.instr.canonical.locate p.layout load with
        address := load + p.layout.addressOf k, length := e.code.length }) := by
  have hbytes := h.instruction_bytes hk hi
  have hlen := (h.length_code_bounds hk hi).2
  obtain ⟨rest', hdrop⟩ := h.drop_code hk
  have hwindow : (e.code ++ rest' ++ rest).take windowLength =
      e.code ++ (rest' ++ rest).take (windowLength - e.code.length) := by
    rw [List.append_assoc, List.take_append, List.take_of_length_le (by unfold windowLength; omega)]
  rw [hdrop, hwindow]
  exact (h.wellFormed hk hi).decode_bytes hbytes load _

theorem target_place (h : p.Assembled) (hk : p.entries[k]? = some e)
    (hi : e.statement = .instruction i) (hm : i.instr.mnemonic.isBranch = true) {n : Int}
    (hops : (i.instr.canonical.locate p.layout load).operands = [.imm n]) :
    ∃ j, BitVec.ofInt 32 n = load + p.layout.addressOf j := by
  have hwf := h.wellFormed hk hi
  have hbytes := h.instruction_bytes hk hi
  obtain ⟨_, hselects⟩ := hwf.selects
  obtain ⟨name, hlabel⟩ := hselects.branch hm
  have hdefines := (hwf.bytes_iff.mp ⟨_, hbytes⟩).2 name (by rw [hlabel]; simp)
  obtain ⟨a, ha⟩ := Layout.exists_resolve_iff.mpr hdefines
  obtain ⟨j, -, hj⟩ := Layout.resolve_ok_iff.mp ha
  rw [Instr.locate_branch hm (hwf.branch hm) hlabel ha] at hops
  cases hops
  refine ⟨j, ?_⟩
  rw [hj, BitVec.ofInt_natCast, BitVec.ofNat_toNat, BitVec.setWidth_eq]

end Assembled

/-! ## At first -/

namespace Running

variable {p : Program} {load : Long} {m m₁ m₂ : Machine}

/-- **At first** a machine that has been loaded runs the program. -/
theorem of_load {pc pc' : Pc} (h : pc.load p.code load p.entryPoint = .ok pc') :
    p.Running load pc'.machine := by
  have hloaded := Pc.loaded_of_load h
  obtain ⟨k, hk⟩ := Assembled.exists_entryPoint p
  refine ⟨lt_of_le_of_lt hloaded.fits pc.memorySize.isLt, hloaded.program, hloaded.code, k, ?_⟩
  rw [← hk]
  exact hloaded.eip

/-! ## What is fetched -/

variable {k : Nat} {e : Entry} {i : Instruction}

theorem toNat_place (h : p.Running load m) (hp : p.Assembled) (k : Nat) :
    (load + p.layout.addressOf k).toNat = load.toNat + p.layout.offset k :=
  hp.toNat_add_addressOf h.fits k

theorem contains_iff (h : p.Running load m) {a : Long} : m.program.contains a = true ↔
    load.toNat ≤ a.toNat ∧ a.toNat < load.toNat + p.code.length := by
  rw [h.program]
  exact AddressRange.contains_iff h.fits

/-- **A statement is fetched** in its canonical form. -/
theorem fetch (h : p.Running load m) (hp : p.Assembled) (hk : p.entries[k]? = some e)
    (hi : e.statement = .instruction i) (heip : m.eip = load + p.layout.addressOf k) :
    m.fetch = .ok (some { i.instr.canonical.locate p.layout load with
      address := load + p.layout.addressOf k, length := e.code.length }) := by
  have hpos := (hp.length_code_bounds hk hi).1
  have hend := p.layout.offset_le_sum (k + 1)
  rw [p.layout.offset_succ (hp.lengths_getElem? hk), ← hp.length_code] at hend
  have heip' : m.eip.toNat = load.toNat + p.layout.offset k := by
    rw [heip, h.toNat_place hp]
  have hcontains : m.program.contains m.eip = true := h.contains_iff.mpr (by omega)
  obtain ⟨rest, hwindow⟩ :=
    m.memory.window_of_window h.code (by omega : p.layout.offset k ≤ _) heip' windowLength
  unfold Machine.fetch
  rw [if_pos hcontains, hwindow, heip]
  exact hp.decode_drop hk hi load rest

theorem fetch_end (h : p.Running load m) (heip : m.eip = load + BitVec.ofNat 32 p.code.length) :
    m.fetch = .ok none := by
  have hout : ¬ m.program.contains m.eip = true := by
    rw [h.contains_iff, heip, toNat_add_ofNat h.fits]
    omega
  unfold Machine.fetch
  rw [if_neg hout]

theorem fetch_cases (h : p.Running load m) (hp : p.Assembled) (hcode : p.IsCode) :
    (m.eip = load + BitVec.ofNat 32 p.code.length ∧ m.fetch = .ok none) ∨
      ∃ k e i, p.entries[k]? = some e ∧ e.statement = .instruction i ∧
        m.eip = load + p.layout.addressOf k ∧
        m.fetch = .ok (some { i.instr.canonical.locate p.layout load with
          address := load + p.layout.addressOf k, length := e.code.length }) := by
  obtain ⟨k, heip⟩ := h.place
  by_cases hk : k < p.entries.length
  · have he : p.entries[k]? = some p.entries[k] := List.getElem?_eq_getElem hk
    obtain ⟨i, hi⟩ := hcode _ (List.mem_of_getElem? he)
    exact .inr ⟨k, _, i, he, hi, heip, h.fetch hp he hi heip⟩
  · rw [hp.addressOf_end (by omega)] at heip
    exact .inl ⟨heip, h.fetch_end heip⟩

/-! ## Steps -/

/-- **A step** leads from a place of the program to another one. -/
theorem step (h : p.Running load m₁) (hp : p.Assembled) (hcode : p.IsCode)
    (hstep : Action.step.Leaves m₁ m₂)
    (hsame : m₂.memory.window load p.code.length = m₁.memory.window load p.code.length)
    (hret : ∀ d, m₁.fetch = .ok (some d) → d.mnemonic = .plain .ret →
      ∀ v, m₁.memory.read (m₁.get .esp) .long = .ok v → p.IsPlace load v) :
    p.Running load m₂ := by
  rcases Action.step_leaves hstep with rfl | ⟨d, hfetch, hperform⟩
  · exact h
  rcases h.fetch_cases hp hcode with ⟨-, hnone⟩ | ⟨k, e, i, hk, hi, -, hsome⟩
  · cases hnone.symm.trans hfetch
  -- an instruction can change anything but the program's range; its bytes stay by assumption
  have ht := Action.takes_of_fetch hfetch
  have hframe := (Action.perform_obeys Action.rules_sameFrame ht (fun _ => ⟨trivial, trivial⟩)
    fun _ _ _ => ⟨rfl, rfl⟩).leaves hperform
  refine ⟨h.fits, hframe.program.trans h.program, hsame.trans h.code, ?_⟩
  rcases Action.perform_eip ht hperform with heip | ⟨hbranch, n, hops, heip⟩ | ⟨hm, hread⟩
  · cases hsome.symm.trans hfetch
    refine ⟨k + 1, ?_⟩
    rw [heip, hp.addressOf_succ hk, ← BitVec.add_assoc]
    rfl
  · cases hsome.symm.trans hfetch
    obtain ⟨j, hj⟩ := hp.target_place hk hi (i.instr.mnemonic.isBranch_canonical ▸ hbranch) hops
    exact ⟨j, heip.trans hj⟩
  · exact hp.isPlace_iff.mp (hret d hfetch hm _ hread)

theorem reaches (h : p.Running load m) (hp : p.Assembled) (hcode : p.IsCode)
    (hrun : p.Reaches load m m₁) : p.Running load m₁ := by
  induction hrun with
  | refl => exact h
  | step _ hstep hsame hret ih => exact ih.step hp hcode hstep hsame hret

/-- The machine stops at the end and at `nop` only. -/
theorem stops (h : p.Running load m) (hp : p.Assembled) (hcode : p.IsCode)
    (hstop : Action.step m = .ok none m₁) :
    m.eip = load + BitVec.ofNat 32 p.code.length ∨
      ∃ k e i, p.entries[k]? = some e ∧ e.statement = .instruction i ∧
        m.eip = load + p.layout.addressOf k ∧ i.instr.mnemonic = .plain .nop := by
  rcases h.fetch_cases hp hcode with ⟨heip, -⟩ | ⟨k, e, i, hk, hi, heip, hfetch⟩
  · exact .inl heip
  have hs := Action.step_cases m
  rw [hstop] at hs
  cases hs with
  | ended hnone => cases hfetch.symm.trans hnone
  | stopped hsome hnop =>
    cases hfetch.symm.trans hsome
    exact .inr ⟨k, e, i, hk, hi, heip, Mnemonic.canonical_eq_plain.mp (beq_iff_eq.mp hnop)⟩

/-- A step fails as the instruction that is fetched may fail, and no other way. -/
theorem fails (h : p.Running load m) (hp : p.Assembled) (hcode : p.IsCode) {f : Fault}
    (hfail : Action.step m = .error f m₁) :
    ∃ d, m.fetch = .ok (some d) ∧ d.mnemonic.MayFault f := by
  have hs := Action.step_cases m
  rw [hfail] at hs
  cases hs with
  | unfetched herror =>
    rcases h.fetch_cases hp hcode with ⟨-, hnone⟩ | ⟨k, e, i, -, -, -, hsome⟩
    · cases hnone.symm.trans herror
    · cases hsome.symm.trans herror
  | failed hfetch hperform =>
    have hmay := Action.perform_mayFault (Action.takes_of_fetch hfetch)
    exact ⟨_, hfetch, (hmay.error hperform).1⟩

end Running

/-! ## A number of steps -/

/-- The next step from a machine leaves the bytes of a program as they are, and if it is a `ret`, it
finds a place of the program on the stack. -/
def Keeps (p : Program) (load : Long) (m : Machine) : Prop :=
  (∀ m₁, Action.step.Leaves m m₁ →
    m₁.memory.window load p.code.length = m.memory.window load p.code.length) ∧
  ∀ d, m.fetch = .ok (some d) → d.mnemonic = .plain .ret →
    ∀ v, m.memory.read (m.get .esp) .long = .ok v → p.IsPlace load v

/-- How a run of a program ends: it stops at the end of the program or at `nop`, it makes as many
steps as it may, or a step from a place of the program fails, but not for an instruction that is
not supported. -/
def Ends {α : Type} (p : Program) (load : Long) (n : Nat) (r : Run α) : Prop :=
  match r.ending with
  | .stopped => r.final.eip = load + BitVec.ofNat 32 p.code.length ∨
      ∃ k e i, p.entries[k]? = some e ∧ e.statement = .instruction i ∧
        r.final.eip = load + p.layout.addressOf k ∧ i.instr.mnemonic = .plain .nop
  | .outOfSteps => r.observed.length = n
  | .failed a f => p.IsPlace load a ∧ f.kind ≠ "InstructionNotSupportedError"

section Run

variable {α : Type} {p : Program} {load : Long} {m m₁ : Machine}

/-- **A run reaches** the machine that it ends with, if all steps keep to the program. -/
theorem Reaches.run (h : p.Reaches load m m₁)
    (hkeeps : ∀ m₂, p.Reaches load m m₂ → p.Keeps load m₂) (observe : Decoded → Machine → α)
    (n : Nat) : p.Reaches load m (Machine.run observe n m₁).final := by
  induction n generalizing m₁ with
  | zero => exact h
  | succ n ih =>
    have hnext : ∀ m₂, Action.step.Leaves m₁ m₂ → p.Reaches load m m₂ := fun m₂ hstep =>
      .step h hstep ((hkeeps m₁ h).1 m₂ hstep) (hkeeps m₁ h).2
    unfold Machine.run
    split
    · next hs => exact hnext _ (.inl ⟨_, hs⟩)
    · next hs => exact ih (hnext _ (.inl ⟨_, hs⟩))
    · next hs => exact hnext _ (.inr ⟨_, hs⟩)

/-- **A run of assembled code ends** as a run of the source does. -/
theorem Reaches.run_ends (h : p.Reaches load m m₁)
    (hkeeps : ∀ m₂, p.Reaches load m m₂ → p.Keeps load m₂) (hm : p.Running load m)
    (hp : p.Assembled) (hcode : p.IsCode) (observe : Decoded → Machine → α) (n : Nat) :
    p.Ends load n (Machine.run observe n m₁) := by
  induction n generalizing m₁ with
  | zero => exact rfl
  | succ n ih =>
    have hm₁ := hm.reaches hp hcode h
    unfold Machine.run
    split
    · next m₂ hs =>
      obtain rfl : m₂ = m₁ := Action.eq_of_step_none hs
      exact hm₁.stops hp hcode hs
    · next d m₂ hs =>
      have hstep : Action.step.Leaves m₁ m₂ := .inl ⟨_, hs⟩
      have hrest := ih (.step h hstep ((hkeeps m₁ h).1 m₂ hstep) (hkeeps m₁ h).2)
      unfold Ends at hrest ⊢
      dsimp only
      split
      · next hend => rwa [hend] at hrest
      · next hend =>
        rw [hend] at hrest
        rw [List.length_cons, hrest]
      · next hend => rwa [hend] at hrest
    · next f m₂ hs =>
      obtain ⟨d, -, hf⟩ := hm₁.fails hp hcode hs
      exact ⟨hp.isPlace_iff.mpr hm₁.place, hf.kind_ne⟩

end Run

end Program

/-! ## Running assembled code -/

/-- **Running assembled code is running the source.** Let a program of instructions be loaded, and
let any number of steps be made that leave its bytes as they are and in which `ret` finds places of
the program on the stack. Then the instruction pointer is at a place of the program; at the start
of a statement the instruction that is fetched, and executed, is the canonical form of the
statement; the machine stops at `nop` and at the end only; and it never fails for an instruction
that is not supported. -/
theorem run_assembled {text : String} {p : Program} (hp : Program.assemble text = .ok p)
    (hcode : p.IsCode) {pc pc' : Pc} {load : Long} {m : Machine}
    (hload : pc.load p.code load p.entryPoint = .ok pc')
    (hrun : p.Reaches load pc'.machine m) :
    p.IsPlace load m.eip ∧
      (∀ (k : Nat) (start : Long) (e : Entry) (i : Instruction),
        p.layout.starts[k]? = some start → m.eip = load + start → p.entries[k]? = some e →
        e.statement = .instruction i →
        m.fetch = .ok (some { i.instr.canonical.locate p.layout load with
          address := load + start, length := e.code.length })) ∧
      (∀ d m', Action.step m = .ok (some d) m' → m.fetch = .ok (some d)) ∧
      (∀ m', Action.step m = .ok none m' → m.eip = load + BitVec.ofNat 32 p.code.length ∨
        ∃ (k : Nat) (start : Long) (e : Entry) (i : Instruction),
          p.layout.starts[k]? = some start ∧ m.eip = load + start ∧ p.entries[k]? = some e ∧
          e.statement = .instruction i ∧ i.instr.mnemonic = .plain .nop) ∧
      ∀ f m', Action.step m = .error f m' → f.kind ≠ "InstructionNotSupportedError" := by
  have h := Program.assemble_assembled hp
  have hm := (Program.Running.of_load hload).reaches h hcode hrun
  refine ⟨h.isPlace_iff.mpr hm.place, fun k start e i hstart heip hk hi => ?_, fun d m' hd => ?_,
    fun m' hstop => ?_, fun f m' hfail => ?_⟩
  · have haddress : p.layout.addressOf k = start := by
      rw [Layout.addressOf, hstart, Option.getD_some]
    rw [← haddress] at heip ⊢
    exact hm.fetch h hk hi heip
  · exact Action.fetch_of_step hd
  · rcases hm.stops h hcode hstop with heip | ⟨k, e, i, hk, hi, heip, hnop⟩
    · exact .inl heip
    · have hlt := (List.getElem?_eq_some_iff.mp hk).1
      rw [← h.length_lengths] at hlt
      exact .inr ⟨k, _, e, i, p.layout.starts_getElem? hlt, heip, hk, hi, hnop⟩
  · obtain ⟨d, -, hf⟩ := hm.fails h hcode hfail
    exact hf.kind_ne

/-- A small machine in which the loop has been loaded. -/
def shiftLoopMachine : Machine where
  registers := { general := (Vector.replicate 8 0).set Reg.esp.slot 32, eip := 8 }
  memory := (Memory.zeros 32).store 8 shiftLoop.code
  program := ⟨8, 16⟩

theorem load_shiftLoop :
    (Pc.new 32).load shiftLoop.code 8 shiftLoop.entryPoint = .ok ⟨32, shiftLoopMachine⟩ := by
  decide +kernel

/-- The machine after the shift. -/
def shiftLoopShifted : Machine :=
  { shiftLoopMachine.setEip 11 with flags := { parity := true, zero := true } }

/-- The machine after the shift is at the jump, which leads back to the shift. -/
theorem run_assembled_shiftLoop :
    shiftLoop.Reaches 8 shiftLoopMachine shiftLoopShifted ∧
      shiftLoopShifted.fetch = .ok (some ⟨⟨.jmp, .long, [.imm 8]⟩, 11, 5⟩) := by
  have hcode : shiftLoop.IsCode := by
    intro e he
    simp only [shiftLoop, List.mem_cons, List.not_mem_nil, or_false] at he
    rcases he with rfl | rfl <;> exact ⟨_, rfl⟩
  have hfetch : shiftLoopMachine.fetch =
      .ok (some ⟨⟨.shift .shl, .word, [.imm 1, .reg ⟨.word, 1⟩]⟩, 8, 3⟩) := by
    decide +kernel
  have hstep : Action.step shiftLoopMachine =
      .ok (some ⟨⟨.shift .shl, .word, [.imm 1, .reg ⟨.word, 1⟩]⟩, 8, 3⟩) shiftLoopShifted := by
    rw [Action.step_eq, hfetch]
    rfl
  have hrun : shiftLoop.Reaches 8 shiftLoopMachine shiftLoopShifted := by
    refine .step .refl (.inl ⟨_, hstep⟩) rfl fun d hd hret => ?_
    cases hfetch.symm.trans hd
    cases hret
  have h := (run_assembled assemble_shiftLoop hcode load_shiftLoop hrun).2.1
  exact ⟨hrun, h 1 3 _ _ (by decide) (by decide) rfl rfl⟩

end Ia32
