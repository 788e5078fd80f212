import Ia32.Command.Emulate
import Ia32.Proofs.Operations
import Ia32.Proofs.MemoryViews

/-!
# Dumps of the stack

A dump goes up the stack long by long, with an address of 32 bits. That it comes to an end rests on
memory: a long that is all in memory ends at an address, too, and leaves less of memory above it.

* `Emulate.IsStackDump`: the longs that are to be shown from an address on, said without the loop;
  `IsStackDump.nil`, `IsStackDump.cons`: none of them, and one more below the others;
* `Emulate.Passes`: what a pass of the loop does to the address; `Passes.toNat_eq`,
  **`Emulate.wellFounded_passes`**: it goes up, and not without end;
* `Emulate.longsBelow_of_read`, `Emulate.longsBelow_of_not`: what a pass shows;
  `Emulate.exists_longsBelow`: what all of them show;
* **`Emulate.stack_shown_exactly`**: what is shown of the stack.
-/

set_option autoImplicit false

namespace Ia32.Emulate

open Text

variable {mem : Memory} {top : Nat} {address v : Long} {words : List (Long × Long)}

/-! ## What is to be shown -/

/-- The longs to be shown from an address on, each with its address. Each of them lies four bytes
above the one before. There is one more as long as it starts below the top and all of its bytes are
in memory, and none above the first for which this is not so. -/
structure IsStackDump (mem : Memory) (first top : Nat) (words : List (Long × Long)) : Prop where
  lt_length_iff : ∀ i, i < words.length ↔
    ∀ j ≤ i, first + 4 * j < top ∧ first + 4 * j + 4 ≤ mem.size
  word : ∀ i address v, words[i]? = some (address, v) →
    address.toNat = first + 4 * i ∧ IsValueAt (mem.bytes[·]?) address .long v

theorem IsStackDump.nil {first : Nat} (h : ¬ (first < top ∧ first + 4 ≤ mem.size)) :
    IsStackDump mem first top [] where
  lt_length_iff i := ⟨nofun, fun hall => absurd (hall 0 i.zero_le) h⟩
  word i address v hi := by simp at hi

theorem IsStackDump.cons (htop : address.toNat < top) (hv : mem.read address .long = .ok v)
    (h : IsStackDump mem (address.toNat + 4) top words) :
    IsStackDump mem address.toNat top ((address, v) :: words) := by
  have hfits : address.toNat + 4 ≤ mem.size := Memory.exists_read_iff.mp ⟨v, hv⟩
  have hplace : ∀ j, address.toNat + 4 + 4 * j = address.toNat + 4 * (j + 1) := by omega
  constructor
  · intro i
    cases i with
    | zero =>
      refine ⟨fun _ j hj => ?_, fun _ => Nat.succ_pos _⟩
      obtain rfl : j = 0 := by omega
      exact ⟨htop, hfits⟩
    | succ i =>
      rw [List.length_cons, Nat.succ_lt_succ_iff, h.lt_length_iff]
      simp only [hplace]
      constructor
      · intro hall j hj
        cases j with
        | zero => exact ⟨htop, hfits⟩
        | succ j => exact hall j (by omega)
      · exact fun hall j hj => hall (j + 1) (by omega)
  · intro i a u hi
    cases i with
    | zero =>
      cases hi
      exact ⟨rfl, Memory.isValueAt_of_read hv⟩
    | succ i =>
      rw [← hplace]
      exact h.word i a u hi

/-! ## The loop -/

/-- A pass of the loop takes an address below the top, whose long is all in memory, to the next one.
Nothing is said of its size: at the end of the addresses it begins again at zero. -/
def Passes (mem : Memory) (top : Nat) (next address : Long) : Prop :=
  address.toNat < top ∧ (∃ v, mem.read address .long = .ok v) ∧ next = address + 4

theorem Passes.fits {next : Long} (h : Passes mem top next address) :
    address.toNat + 4 ≤ mem.size := Memory.exists_read_iff.mp h.2.1

/-- **The address stays in 32 bits**, if memory does. -/
theorem Passes.toNat_eq {next : Long} (h : Passes mem top next address)
    (hmem : mem.size < 2 ^ 32) : next.toNat = address.toNat + 4 := by
  have hlt : address.toNat + 4 < 2 ^ 32 := h.fits.trans_lt hmem
  obtain ⟨-, -, rfl⟩ := h
  exact toNat_add_ofNat hlt

/-- **Passes do not go on without end**: each leaves four bytes less of memory above the address. -/
theorem wellFounded_passes (hmem : mem.size < 2 ^ 32) (top : Nat) :
    WellFounded (Passes mem top) := by
  refine Subrelation.wf (fun {next address} h => ?_)
    (measure fun address : Long => mem.size - address.toNat).wf
  change mem.size - next.toNat < mem.size - address.toNat
  have hnext := h.toNat_eq hmem
  have hfits := h.fits
  omega

/-- A pass shows the long at its address, and the loop goes on if the next address fits. -/
theorem longsBelow_of_read (htop : address.toNat < top) (hv : mem.read address .long = .ok v) :
    longsBelow mem top address = if address.toNat + 4 ≤ 0xFFFFFFFF then
      (longsBelow mem top (address + 4)).map ((address, v) :: ·) else none := by
  conv_lhs => rw [longsBelow, if_pos htop, hv]
  split_ifs
  · exact Option.map_eq_bind.symm
  · rfl

theorem longsBelow_of_not (h : ¬ (address.toNat < top ∧ address.toNat + 4 ≤ mem.size)) :
    longsBelow mem top address = some [] := by
  by_cases htop : address.toNat < top
  · cases hv : mem.read address .long with
    | ok v => exact absurd ⟨htop, Memory.exists_read_iff.mp ⟨v, hv⟩⟩ h
    | error f =>
      rw [longsBelow, if_pos htop, hv]
      rfl
  · rw [longsBelow, if_neg htop]
    rfl

/-- **The loop comes to its end**, and what it shows is what is to be shown. -/
theorem exists_longsBelow (hmem : mem.size < 2 ^ 32) (top : Nat) (address : Long) :
    ∃ words, longsBelow mem top address = some words ∧ IsStackDump mem address.toNat top words := by
  induction address using (wellFounded_passes hmem top).induction with
  | _ address ih =>
    by_cases hin : address.toNat < top ∧ address.toNat + 4 ≤ mem.size
    · obtain ⟨v, hv⟩ : ∃ v, mem.read address .long = .ok v := Memory.exists_read_iff.mpr hin.2
      have hpass : Passes mem top (address + 4) address := ⟨hin.1, ⟨v, hv⟩, rfl⟩
      obtain ⟨words, hwords, hdump⟩ := ih (address + 4) hpass
      rw [hpass.toNat_eq hmem] at hdump
      refine ⟨(address, v) :: words, ?_, hdump.cons hin.1 hv⟩
      -- the next address fits, since this long ends in memory
      rw [longsBelow_of_read hin.1 hv, if_pos (by omega), hwords, Option.map_some]
    · exact ⟨[], longsBelow_of_not hin, .nil hin⟩

/-! ## Main result -/

/-- **What is shown of the stack.** In a memory whose size is a number of 32 bits the loop comes to
its end, wherever the stack pointer and the frame pointer point to: its passes do not go on without
end, and none of them takes its address out of 32 bits. It prints, one a line, the longs from the
stack pointer on that start below the top, up to the first that is not all in memory. The top is the
frame pointer if that is above the stack pointer, else 32 bytes above the stack pointer, or the last
address if that is lower. -/
theorem stack_shown_exactly (m : Machine) (hm : m.memory.size < 2 ^ 32) :
    let esp := (m.get .esp).toNat
    let ebp := (m.get .ebp).toNat
    let top := if esp < ebp then ebp else min (esp + 32) (2 ^ 32 - 1)
    WellFounded (Passes m.memory top) ∧
    (∀ next address, Passes m.memory top next address → next.toNat = address.toNat + 4) ∧
    ∃ words, stackWords m = some words ∧ IsStackDump m.memory esp top words ∧
      stackLines m = words.map (fun (address, v) => dumpLine address (hexLong v)) ++ [dumpEnd] := by
  intro esp ebp top
  have htop : stackTop m = top := rfl
  obtain ⟨words, hwords, hdump⟩ := exists_longsBelow hm (stackTop m) (m.get .esp)
  have hstack : stackWords m = some words := hwords
  rw [htop] at hdump
  refine ⟨wellFounded_passes hm top, fun _ _ h => h.toNat_eq hm, words, hstack, hdump, ?_⟩
  rw [stackLines, hstack]

/-- At the end of the largest memory one long is shown. Of the next one only the last byte is not in
memory, and above it there are no addresses any more. -/
theorem stack_shown_exactly_lastAddress :
    let m := (Machine.new 0xFFFFFFFF).set .esp 0xFFFFFFF8
    m.memory.size < 2 ^ 32 ∧ ∃ words, stackWords m = some words ∧ words.length = 1 := by
  intro m
  have hsize : m.memory.size = 0xFFFFFFFF := Machine.size_new 0xFFFFFFFF
  have hlt : m.memory.size < 2 ^ 32 := by omega
  have hesp : m.get .esp = 0xFFFFFFF8 := Machine.get_set_esp _ _
  have hebp : m.get .ebp = 0 := Machine.get_set_of_slot_ne _ (by decide) _
  obtain ⟨-, -, words, hwords, hdump, -⟩ := stack_shown_exactly m hlt
  have hlength := hdump.lt_length_iff
  rw [hesp, hebp, hsize] at hlength
  have hfirst : 0 < words.length := (hlength 0).mpr (by decide)
  have hsecond : ¬ 1 < words.length := fun h => absurd ((hlength 1).mp h 1 le_rfl) (by decide)
  exact ⟨hlt, words, hwords, by omega⟩

/-- The second long is not all in memory. -/
example : stackLines { memory := ⟨#[0x78, 0x56, 0x34, 0x12, 0xFF, 0xFF]⟩ } =
    [" | 00000000 : 12345678                               |", dumpEnd] := by
  cbv

end Ia32.Emulate
