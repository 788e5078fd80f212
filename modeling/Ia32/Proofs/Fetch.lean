import Ia32.Proofs.Control
import Ia32.Proofs.Extent

/-!
# What is fetched

A machine looks at ten bytes of its memory for the next instruction, wherever its program ends.

* `decode_take_some`, `decode_take_error`: the first bytes of a string decoded;
* `decode_length`: how long an instruction is, and that it lies in the bytes that are decoded;
* **`fetch_eq_decode_rest_iff`**: all of memory would be decoded alike, but for instructions of
  eleven bytes, of which there are some (`fetch_cut`);
* `Machine.Reaches`: runs of any number of steps; `Reaches.sameFrame`: the program stays in its
  place;
* **`fetch_extent`**: what is fetched starts in the program, but the program alone holds it
  only if it ends there, too, which it need not (`fetch_beyond`).
-/

set_option autoImplicit false

namespace Ia32

/-! ## Beginnings of strings -/

section Take

variable {bs : List Byte} {address : Long} {d : Decoded} {f : Fault}

theorem decode_take_some (h : decode bs address = .ok (some d)) (n : Nat) :
    decode (bs.take n) address = .ok (if d.length ≤ n then some d else none) := by
  obtain ⟨i, k, hrun, rfl⟩ := decode_ok_iff.mp h
  have hlength : (i.place address k).length = k := rfl
  rw [decode_eq_run, Reading.run_take, hrun, Outcome.within, hlength]
  by_cases hk : k ≤ n
  · rw [if_pos hk, if_pos hk]
  · rw [if_neg hk, if_neg hk]

theorem decode_take_none (h : decode bs address = .ok none) (n : Nat) :
    decode (bs.take n) address = .ok none := by
  rw [decode_eq_run] at h
  have hrun : Reading.instr.run bs = .truncated := by
    cases hr : Reading.instr.run bs with
    | truncated => rfl
    | done i k | refused k =>
      rw [hr] at h
      cases h
  rw [decode_eq_run, Reading.run_take, hrun]
  rfl

theorem decode_take_error (h : decode bs address = .error f) {n : Nat} (hn : 8 ≤ n) :
    decode (bs.take n) address = .error f := by
  rw [decode_eq_run] at h
  cases hrun : Reading.instr.run bs with
  | done i k | truncated =>
    rw [hrun] at h
    cases h
  | refused k =>
    obtain ⟨cs, rest, -, hrefuses, rfl⟩ := Reading.refuses_of_run hrun
    have hle : cs.length ≤ n := (Reading.spans_instr.refuses cs hrefuses).trans hn
    rw [hrun] at h
    rw [decode_eq_run, Reading.run_take, hrun, Outcome.within, if_pos hle, ← h]
    dsimp only
    rw [List.take_take, Nat.min_eq_left hle]

/-- **An instruction** lies in the bytes that are decoded, and has ten bytes at most, but for those
that put a long constant into memory. -/
theorem decode_length (h : decode bs address = .ok (some d)) :
    d.address = address ∧ d.length ≤ bs.length ∧
      (d.length ≤ 10 ∨
        d.length = 11 ∧ d.width = .long ∧ ∃ n m, d.operands = [.imm n, .mem m]) := by
  obtain ⟨i, k, hrun, rfl⟩ := decode_ok_iff.mp h
  obtain ⟨cs, rest, rfl, hreads, rfl⟩ := Reading.reads_of_run hrun
  refine ⟨rfl, ?_, ?_⟩
  · rw [List.length_append]
    exact Nat.le_add_right _ _
  · refine (Reading.spans_instr.reads cs i hreads).imp_right ?_
    rintro ⟨hlen, hw, n, m, hops⟩
    refine ⟨hlen, hw, n, m, ?_⟩
    -- a branch has a constant only
    have hbranch : i.mnemonic.isBranch ≠ true := by
      intro hm
      obtain ⟨-, distance, hops'⟩ := (Reading.yields_takes cs i hreads).of_isBranch hm
      cases hops.symm.trans hops'
    rw [Instr.place, if_neg hbranch]
    exact hops

end Take

/-! ## The bytes that are looked at -/

/-- The bytes from an address to the end of memory. -/
def Memory.rest (m : Memory) (address : Long) : List Byte := m.bytes.toList.drop address.toNat

theorem Memory.window_eq_take (m : Memory) (address : Long) (count : Nat) :
    m.window address count = (m.rest address).take count := m.window_eq address count

theorem Memory.length_rest (m : Memory) (address : Long) :
    (m.rest address).length = m.size - address.toNat := by
  rw [rest, List.length_drop, Array.length_toList, size]

theorem Machine.fetch_eq {m : Machine} (h : m.program.contains m.eip = true) :
    m.fetch = decode ((m.memory.rest m.eip).take windowLength) m.eip := by
  rw [fetch, if_pos h, Memory.window_eq_take]

/-- **What is fetched** is what would be decoded from all bytes up to the end of memory, unless that
has eleven bytes: then it is a long constant put into memory, and the machine stops in front of
it. -/
theorem fetch_eq_decode_rest_iff {m : Machine} (h : m.program.contains m.eip = true) :
    (m.fetch = decode (m.memory.rest m.eip) m.eip ↔
      ∀ d, decode (m.memory.rest m.eip) m.eip = .ok (some d) → d.length ≠ 11) ∧
    ∀ d, decode (m.memory.rest m.eip) m.eip = .ok (some d) →
      d.length ≤ 10 ∧ m.fetch = .ok (some d) ∨
      d.length = 11 ∧ m.fetch = .ok none ∧ d.width = .long ∧
        ∃ n ref, d.operands = [.imm n, .mem ref] := by
  have hwindow : windowLength = 10 := rfl
  rw [Machine.fetch_eq h]
  generalize m.memory.rest m.eip = bs
  rcases hd : decode bs m.eip with f | _ | d
  · have hnone : ∀ d, (.error f : Except Fault (Option Decoded)) ≠ .ok (some d) := nofun
    rw [decode_take_error hd (by omega)]
    exact ⟨iff_of_true rfl fun d h => (hnone d h).elim, fun d h => (hnone d h).elim⟩
  · have hnone : ∀ d, (.ok none : Except Fault (Option Decoded)) ≠ .ok (some d) := nofun
    rw [decode_take_none hd]
    exact ⟨iff_of_true rfl fun d h => (hnone d h).elim, fun d h => (hnone d h).elim⟩
  · rw [decode_take_some hd]
    rcases (decode_length hd).2.2 with hle | ⟨hlen, hw, hops⟩
    · rw [if_pos (by omega)]
      refine ⟨iff_of_true rfl ?_, ?_⟩
      · rintro _ ⟨⟩
        omega
      · rintro _ ⟨⟩
        exact .inl ⟨hle, rfl⟩
    · rw [if_neg (by omega)]
      refine ⟨iff_of_false nofun fun hne => hne d rfl hlen, ?_⟩
      rintro _ ⟨⟩
      exact .inr ⟨hlen, rfl, hw, hops⟩

/-- A machine with `movl $0x12345678, 0x10(%eax,%ecx,4)` for its program and all of its memory. -/
def longMove : Machine where
  memory := ⟨#[0xC7, 0x84, 0x88, 0x10, 0x00, 0x00, 0x00, 0x78, 0x56, 0x34, 0x12]⟩
  program := ⟨0, 11⟩

/-- What is to be decoded there. -/
def longMoveDecoded : Decoded where
  mnemonic := .mov
  width := .long
  operands := [.imm 0x12345678,
    .mem { base := some ⟨.long, 0⟩, offset := 0x10, index := some ⟨.long, 1⟩, scale := .four }]
  address := 0
  length := 11

/-- **An instruction can be too long** to be fetched, though all of it lies in the program. -/
theorem fetch_cut : longMove.program.contains longMove.eip = true ∧
    decode (longMove.memory.rest longMove.eip) longMove.eip = .ok (some longMoveDecoded) ∧
    longMove.fetch ≠ decode (longMove.memory.rest longMove.eip) longMove.eip := by
  decide +kernel

theorem fetch_longMove : longMove.fetch = .ok none := by
  have h := (fetch_eq_decode_rest_iff (m := longMove) (by decide +kernel)).2
  rcases h longMoveDecoded (by decide +kernel) with ⟨hlen, -⟩ | ⟨-, hfetch, -⟩
  · exact absurd hlen (by decide)
  · exact hfetch

/-! ## Runs -/

namespace Machine

/-- Any number of steps, each of which may fail. -/
inductive Reaches (m : Machine) : Machine → Prop where
  | refl : Reaches m m
  | step {m₁ m₂ : Machine} (h : Reaches m m₁) (hstep : Action.step.Leaves m₁ m₂) : Reaches m m₂

theorem sameFrame_of_step {m m' : Machine} (h : Action.step.Leaves m m') : SameFrame m m' := by
  rcases Action.step_leaves h with rfl | ⟨d, hfetch, hperform⟩
  · exact Action.rules_sameFrame.refl m'
  · have ht := Action.takes_of_fetch hfetch
    have hobeys := Action.perform_obeys Action.rules_sameFrame ht (fun _ => ⟨trivial, trivial⟩)
      fun _ _ _ => ⟨rfl, rfl⟩
    have hframe := hobeys.leaves hperform
    exact ⟨hframe.program, hframe.size⟩

theorem Reaches.sameFrame {m m' : Machine} (h : m.Reaches m') : SameFrame m m' := by
  induction h with
  | refl => exact Action.rules_sameFrame.refl m
  | step _ hstep ih => exact Action.rules_sameFrame.trans _ _ _ ih (sameFrame_of_step hstep)

end Machine

/-! ## The end of the program -/

/-- **What is fetched starts in the program**, ends in memory, and has ten bytes at most. The bytes
of the program alone hold it exactly if it ends in the program, too; else they end before it does,
and it has been completed with bytes that follow the program in memory. -/
theorem fetch_extent {pc pc' : Pc} {m' : Machine} {code : List Byte} {load offset : Long}
    (hload : pc.load code load offset = .ok pc') (hrun : pc'.machine.Reaches m') {d : Decoded}
    (hd : m'.fetch = .ok (some d)) :
    m'.program = ⟨load, load + BitVec.ofNat 32 code.length⟩ ∧
      load.toNat ≤ d.address.toNat ∧ d.address.toNat < load.toNat + code.length ∧
      d.length ≤ 10 ∧ d.address.toNat + d.length ≤ pc.memorySize.toNat ∧
      decode (m'.memory.window d.address (load.toNat + code.length - d.address.toNat)) d.address =
        .ok (if d.address.toNat + d.length ≤ load.toNat + code.length then some d else none) := by
  have hloaded := Pc.loaded_of_load hload
  have hfit := hloaded.fits
  have hsize := pc.memorySize.isLt
  have hframe := hrun.sameFrame
  have hprogram' := hframe.program.trans hloaded.program
  have hmemory' : m'.memory.size = pc.memorySize.toNat := hframe.size.trans hloaded.size
  have hcontains : m'.program.contains m'.eip = true := by
    by_contra hnot
    rw [Machine.fetch, if_neg hnot] at hd
    cases hd
  have hinside : load.toNat ≤ m'.eip.toNat ∧ m'.eip.toNat < load.toNat + code.length :=
    (AddressRange.contains_iff (by omega)).mp (hprogram' ▸ hcontains)
  rw [Machine.fetch_eq hcontains] at hd
  obtain ⟨haddress, hlength, -⟩ := decode_length hd
  rw [List.length_take, Memory.length_rest, hmemory'] at hlength
  have hwindow : windowLength = 10 := rfl
  rw [haddress]
  refine ⟨hprogram', hinside.1, hinside.2, by omega, by omega, ?_⟩
  -- all bytes up to the end of memory give the instruction, and the program is a beginning of them
  have hrest : decode (m'.memory.rest m'.eip) m'.eip = .ok (some d) := by
    have h := (fetch_eq_decode_rest_iff hcontains).1
    rcases hr : decode (m'.memory.rest m'.eip) m'.eip with f | _ | e
    · rw [decode_take_error hr (by omega)] at hd
      cases hd
    · rw [decode_take_none hr] at hd
      cases hd
    · rw [decode_take_some hr] at hd
      split at hd
      · exact hd
      · cases hd
  rw [Memory.window_eq_take, decode_take_some hrest]
  congr 1
  exact if_congr (by omega) rfl rfl

/-- The first two bytes of `movl $1, %eax`, as a program. -/
def cutMove : List Byte := [0xB8, 0x01]

/-- A machine in which they have been loaded at the start of memory. -/
def cutMoveMachine : Machine where
  registers := { general := (Vector.replicate 8 0).set 4 16 }
  memory := (Memory.zeros 16).store 0 cutMove
  program := ⟨0, 2⟩

/-- The instruction that is found there. -/
def cutMoveDecoded : Decoded := ⟨⟨.mov, .long, [.imm 1, .reg ⟨.long, 0⟩]⟩, 0, 5⟩

theorem load_cutMove : (Pc.new 16).load cutMove 0 0 = .ok ⟨16, cutMoveMachine⟩ := by
  decide +kernel

theorem fetch_cutMove : cutMoveMachine.fetch = .ok (some cutMoveDecoded) := by
  decide +kernel

/-- **An instruction can end outside of the program**, completed with bytes that follow it. -/
theorem fetch_beyond : (Pc.new 16).load cutMove 0 0 = .ok ⟨16, cutMoveMachine⟩ ∧
    cutMoveMachine.fetch = .ok (some cutMoveDecoded) ∧
    cutMoveMachine.program.finish.toNat < cutMoveDecoded.address.toNat + cutMoveDecoded.length :=
  ⟨load_cutMove, fetch_cutMove, by decide⟩

theorem decode_cutMove : decode (cutMoveMachine.memory.window 0 2) 0 = .ok none :=
  (fetch_extent load_cutMove .refl fetch_cutMove).2.2.2.2.2

end Ia32
