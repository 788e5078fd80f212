import Ia32.Proofs.Operations
import Ia32.Proofs.Stack

/-!
# Programs that are loaded

* `Machine.IsReset`: a machine with nothing but a program, ready to run;
* `Pc.load_congr`: what was done to a machine does not count when a program is loaded;
* `Pc.isReset_of_load`: the machine is reset;
* **`load_resets_or_fails`**: a program that fits resets the machine, and another one leaves it as
  it was.
-/

set_option autoImplicit false

namespace Ia32

theorem Registers.get_initial (r : Reg) : ({} : Registers).get r = 0 := by
  have hslot : (Vector.replicate 8 (0 : Long)).get r.slot = 0#32 :=
    Vector.getElem_replicate r.slot.isLt
  rw [get, hslot, BitVec.zero_ushiftRight]
  exact BitVec.zero_and

namespace Machine

/-- A machine with nothing in memory but a program, and all else as it is at the start. Its stack
is at the end of memory, and it begins at an offset in the program. -/
structure IsReset (size : Long) (code : List Byte) (address offset : Long) (m : Machine) :
    Prop where
  memory : m.memory.size = size.toNat
  program : m.memory.window address code.length = code
  zeros : ∀ a < size.toNat, a < address.toNat ∨ address.toNat + code.length ≤ a →
    m.memory.bytes[a]? = some 0
  esp : m.get .esp = size
  registers : ∀ r : Reg, r.slot ≠ Reg.esp.slot → m.get r = 0
  eip : m.eip.toNat = (address.toNat + offset.toNat) % 2 ^ 32
  flags : m.flags.bits = Flags.reserved
  /-- Outside of the program nothing is fetched, now or later. -/
  outside : ∀ m' : Machine, m'.program = m.program →
    m'.eip.toNat < address.toNat ∨ address.toNat + code.length ≤ m'.eip.toNat →
    m'.fetch = .ok none

end Machine

namespace Pc

variable {pc pc' : Pc} {address offset : Long} {code : List Byte}

/-- **What was done to a machine does not count** when a program is loaded, but for the size that
its memory is to have. -/
theorem load_congr (h : pc.memorySize = pc'.memorySize) (code : List Byte) (address offset : Long) :
    pc.load code address offset = pc'.load code address offset := by
  rw [load_eq, load_eq, h]

/-- **A machine with a program that was loaded** is reset. -/
theorem isReset_of_load (h : pc.load code address offset = .ok pc') :
    pc'.machine.IsReset pc.memorySize code address offset := by
  have hloaded := loaded_of_load h
  have hfits := hloaded.fits
  have hsize := pc.memorySize.isLt
  rw [load_eq, if_neg (Nat.not_lt.mpr hfits)] at h
  refine
    { memory := hloaded.size
      program := hloaded.code
      zeros := fun a ha hout => ?_
      esp := ?_
      registers := fun r hr => ?_
      eip := by rw [hloaded.eip, BitVec.toNat_add]
      flags := ?_
      outside := fun m' hprogram hout => ?_ }
  · cases h
    refine (Memory.getElem?_store _ hout).trans ?_
    exact Array.getElem?_replicate.trans (if_pos ha)
  · cases h
    exact Machine.get_set_esp _ _
  · cases h
    rw [Machine.get_set_of_slot_ne _ hr]
    exact Registers.get_initial r
  · cases h
    rfl
  · -- the end of the program does not wrap, since it lies in memory
    have hnot : ¬ m'.program.contains m'.eip = true := by
      rw [hprogram, hloaded.program, AddressRange.contains_iff (by omega)]
      omega
    rw [Machine.fetch, if_neg hnot]

end Pc

/-- **A program is loaded or not.** Into a memory that ends before it does it is not, and the
machine stays as it was. Else it is, no sum is more than 32 bits, and the machine is one that is
reset, the same whatever the machine was before. -/
theorem load_resets_or_fails (size : Long) (code : List Byte) (address offset : Long) :
    (∀ pc f pc', pc.memorySize = size →
      ((Pc.Operation.load code address offset).action pc = .error f pc' ↔
        size.toNat < address.toNat + code.length ∧ f = .codeTooLarge ∧ pc' = pc)) ∧
    (address.toNat + code.length ≤ size.toNat →
      ∃ m₀ : Machine, m₀.IsReset size code address offset ∧
        ∀ pc, pc.memorySize = size →
          (Pc.Operation.load code address offset).action pc = .ok () ⟨size, m₀⟩ ∧
          (Pc.Operation.load code address offset).watch pc = some ⟨size, m₀⟩) := by
  refine ⟨fun pc f pc' hpc => ?_, fun hfits => ?_⟩
  · unfold Pc.Operation.action
    dsimp only
    rw [Pc.load_eq, hpc]
    by_cases hfit : size.toNat < address.toNat + code.length
    · simp only [hfit, if_true, true_and, EStateM.Result.error.injEq, eq_comm]
    · simp only [hfit, if_false, false_and, reduceCtorEq]
  · obtain ⟨m₀, h₀⟩ : ∃ m₀, (Pc.new size).load code address offset = .ok ⟨size, m₀⟩ := by
      have hin : ¬ (Pc.new size).memorySize.toNat < address.toNat + code.length :=
        Nat.not_lt.mpr hfits
      rw [Pc.load_eq, if_neg hin]
      exact ⟨_, rfl⟩
    refine ⟨m₀, Pc.isReset_of_load h₀, fun pc hpc => ?_⟩
    have hnew : pc.memorySize = (Pc.new size).memorySize := hpc
    have hload : pc.load code address offset = .ok ⟨size, m₀⟩ :=
      (Pc.load_congr hnew code address offset).trans h₀
    constructor
    · unfold Pc.Operation.action
      dsimp only
      rw [hload]
    · unfold Pc.Operation.watch
      dsimp only
      rw [Pc.watchedLoad_eq, hload]
      rfl

/-- A machine of 16 bytes on which work has been done. -/
def usedMachine : Pc :=
  (Pc.new 16).after
    [.machine (.set .eax 5), .machine (.setFlags 0xFFF), .machine (.push .long 7)]

theorem load_resets_or_fails_used :
    (Pc.Operation.load [0x90, 0x90] 15 0).action usedMachine = .error .codeTooLarge usedMachine ∧
    ∃ m₀ : Machine, m₀.IsReset 16 [0x90, 0x90] 14 1 ∧
      (Pc.Operation.load [0x90, 0x90] 14 1).action usedMachine = .ok () ⟨16, m₀⟩ := by
  have hsize : usedMachine.memorySize = 16 := Pc.memorySize_after _ _
  refine ⟨((load_resets_or_fails 16 [0x90, 0x90] 15 0).1 _ _ _ hsize).mpr ⟨by decide, rfl, rfl⟩, ?_⟩
  obtain ⟨m₀, hreset, hload⟩ := (load_resets_or_fails 16 [0x90, 0x90] 14 1).2 (by decide)
  exact ⟨m₀, hreset, (hload usedMachine hsize).1⟩

end Ia32
