import Ia32.Proofs.Fetch

/-!
# What an instruction depends on

* `decode_take_append`, `decode_append_error`: what follows an instruction does not matter to it,
  nor what follows bytes that start none;
* `decode_length_pos`: an instruction takes one byte at least;
* `Sweeps`: the instructions in a string of bytes, up to the reason why no more follow them;
  `sweeps_iff`: there always is such a reason, and `sweep` finds it;
* **`decode_determined`**: an instruction is decoded from its own bytes and from nothing else, so
  that sweeps end and no instruction is the beginning of a longer one.
-/

set_option autoImplicit false

namespace Ia32

/-! ## Bytes of an instruction -/

section Bytes

variable {bs : List Byte} {address : Long} {d : Decoded} {f : Fault}

theorem decode_reads (h : decode bs address = .ok (some d)) :
    ∃ i rest, bs = bs.take d.length ++ rest ∧ Reading.instr.Reads (bs.take d.length) i ∧
      i.place address d.length = d := by
  obtain ⟨i, n, hrun, rfl⟩ := decode_ok_iff.mp h
  obtain ⟨cs, rest, rfl, hreads, rfl⟩ := Reading.reads_of_run hrun
  have hlength : (i.place address cs.length).length = cs.length := rfl
  rw [hlength, List.take_left' rfl]
  exact ⟨i, rest, rfl, hreads, rfl⟩

/-- **What follows an instruction** does not matter. -/
theorem decode_take_append (h : decode bs address = .ok (some d)) (rest : List Byte) :
    decode (bs.take d.length ++ rest) address = .ok (some d) := by
  obtain ⟨i, -, -, hreads, hplace⟩ := decode_reads h
  have hle := (decode_length h).2.1
  have hrun := hreads.run rest
  rw [List.length_take, Nat.min_eq_left hle] at hrun
  exact decode_ok_iff.mpr ⟨i, d.length, hrun, hplace⟩

theorem decode_length_pos (h : decode bs address = .ok (some d)) : 1 ≤ d.length := by
  obtain ⟨i, n, hrun, rfl⟩ := decode_ok_iff.mp h
  obtain ⟨cs, -, -, hreads, rfl⟩ := Reading.reads_of_run hrun
  obtain ⟨first, es, ds, rfl, hfirst, -⟩ := Reading.reads_bind.mp hreads
  rw [Reading.reads_byte.mp hfirst]
  exact Nat.le_add_left 1 ds.length

/-- **What follows bytes that start no instruction** does not matter, either. -/
theorem decode_append_error (h : decode bs address = .error f) (rest : List Byte) :
    decode (bs ++ rest) address = .error f := by
  rw [decode_eq_run] at h
  cases hrun : Reading.instr.run bs with
  | done i n | truncated =>
    rw [hrun] at h
    cases h
  | refused n =>
    rw [hrun] at h
    obtain ⟨cs, ds, rfl, hrefuses, rfl⟩ := Reading.refuses_of_run hrun
    rw [decode_eq_run, List.append_assoc, hrefuses.run, ← h]
    dsimp only
    rw [List.take_left' rfl, List.take_left' rfl]

theorem decode_append_complete {address' : Long} {d' : Decoded} {rest : List Byte}
    (h : decode bs address = .ok (some d)) (hlen : d.length = bs.length)
    (h' : decode (bs ++ rest) address' = .ok (some d'))
    (hlen' : d'.length = (bs ++ rest).length) : rest = [] := by
  obtain ⟨i, n, hrun, rfl⟩ := decode_ok_iff.mp h
  obtain ⟨i', n', hrun', rfl⟩ := decode_ok_iff.mp h'
  obtain ⟨cs, ds, rfl, hreads, rfl⟩ := Reading.reads_of_run hrun
  rw [List.append_assoc, hreads.run] at hrun'
  cases hrun'
  -- both lengths are the number of bytes that are read
  have hsame : cs.length = (cs ++ ds ++ rest).length := hlen'
  rw [List.length_append, List.length_append] at hsame
  exact List.length_eq_zero_iff.mp (by omega)

end Bytes

/-! ## Sweeps -/

/-- The instructions in a string of bytes from an address, one after the other, up to a fault or to
the end of the bytes. -/
inductive Sweeps : List Byte → Long → Sweep → Prop where
  | ended {bs : List Byte} {address : Long} (h : decode bs address = .ok none) :
      Sweeps bs address ⟨[], 0, none⟩
  | fault {bs : List Byte} {address : Long} {f : Fault} (h : decode bs address = .error f) :
      Sweeps bs address ⟨[], 0, some f⟩
  | next {bs : List Byte} {address : Long} {d : Decoded} {s : Sweep}
      (h : decode bs address = .ok (some d)) (hs : Sweeps (bs.drop d.length) d.next s) :
      Sweeps bs address ⟨d :: s.instructions, d.length + s.length, s.fault⟩

namespace Sweeps

variable {bs : List Byte} {address : Long} {s : Sweep}

/-- As many instructions as there are bytes are enough, since each takes one at least. -/
theorem sweepFrom {n : Nat} (hn : bs.length ≤ n) : Sweeps bs address (sweepFrom n bs address) := by
  induction n generalizing bs address with
  | zero =>
    obtain rfl : bs = [] := List.length_eq_zero_iff.mp (Nat.le_zero.mp hn)
    exact .ended rfl
  | succ n ih =>
    unfold Ia32.sweepFrom
    rcases hd : decode bs address with f | _ | d
    · exact .fault hd
    · exact .ended hd
    · have hpos := decode_length_pos hd
      refine .next hd (ih ?_)
      rw [List.length_drop]
      omega

theorem unique (h : Sweeps bs address s) {t : Sweep} (ht : Sweeps bs address t) : s = t := by
  induction h generalizing t with
  | ended h | fault h =>
    cases ht <;> simp_all
  | next h _ ih =>
    cases ht with
    | ended h' | fault h' => cases h.symm.trans h'
    | next h' hs' =>
      cases h.symm.trans h'
      rw [ih hs']

/-- **A sweep advances**: by the bytes of its instructions, which are one at least for each and all
of the string at most. -/
theorem advances (h : Sweeps bs address s) :
    (∀ d ∈ s.instructions, 1 ≤ d.length) ∧
      s.length = (s.instructions.map fun d => d.length).sum ∧ s.length ≤ bs.length := by
  induction h with
  | ended h | fault h => exact ⟨nofun, rfl, Nat.zero_le _⟩
  | @next bs address d s h _ ih =>
    obtain ⟨hpos, hsum, hle⟩ := ih
    have hlength := (decode_length h).2.1
    refine ⟨?_, ?_, ?_⟩
    · rintro e he
      rcases List.mem_cons.mp he with rfl | he
      · exact decode_length_pos h
      · exact hpos e he
    · dsimp only
      rw [List.map_cons, List.sum_cons, hsum]
    · rw [List.length_drop] at hle
      dsimp only
      omega

end Sweeps

/-- **Every string of bytes can be swept**, and in one way. -/
theorem sweeps_iff {bs : List Byte} {address : Long} {s : Sweep} :
    Sweeps bs address s ↔ sweep bs address = s := by
  have hsweep : Sweeps bs address (sweep bs address) := Sweeps.sweepFrom (Nat.le_refl _)
  constructor
  · exact fun h => hsweep.unique h
  · rintro rfl
    exact hsweep

/-! ## Main result -/

/-- **An instruction is decoded from its own bytes.** It takes one byte at least and none that is
not there; with any other bytes behind its own it is decoded as well, and from fewer than its own
there is none. Bytes that start no instruction start none whatever follows them. So the sweep of
any string of bytes goes on with every instruction and ends, with a fault or with the bytes; and no
instruction is a beginning of a longer one, wherever the two lie. -/
theorem decode_determined (bs : List Byte) (address : Long) :
    (∀ d, decode bs address = .ok (some d) → 1 ≤ d.length ∧ d.length ≤ bs.length ∧
      (∀ rest, decode (bs.take d.length ++ rest) address = .ok (some d)) ∧
      ∀ n < d.length, decode (bs.take n) address = .ok none) ∧
    (∀ f, decode bs address = .error f → f.kind = "InstructionNotSupportedError" ∧
      ∀ rest, decode (bs ++ rest) address = .error f) ∧
    ((∀ s, Sweeps bs address s ↔ sweep bs address = s) ∧
      (sweep bs address).length ≤ bs.length ∧
      ∀ d ∈ (sweep bs address).instructions, 1 ≤ d.length) ∧
    ∀ d d' rest address', decode bs address = .ok (some d) → d.length = bs.length →
      decode (bs ++ rest) address' = .ok (some d') → d'.length = (bs ++ rest).length →
      rest = [] := by
  obtain ⟨hpos, -, hle⟩ := (sweeps_iff.mpr (rfl : sweep bs address = _)).advances
  refine ⟨fun d hd => ?_, fun f hf => ?_, ⟨fun s => sweeps_iff, hle, hpos⟩, ?_⟩
  · refine ⟨decode_length_pos hd, (decode_length hd).2.1, decode_take_append hd, fun n hn => ?_⟩
    rw [decode_take_some hd, if_neg (Nat.not_le_of_lt hn)]
  · refine ⟨?_, decode_append_error hf⟩
    rw [decode_eq_run] at hf
    split at hf
    · cases hf
    · cases hf
    · cases hf
      rfl
  · exact fun d d' rest address' hd hlen hd' hlen' => decode_append_complete hd hlen hd' hlen'

/-- `movw $0x1234, %ax`. -/
def wordMove : List Byte := [0x66, 0xB8, 0x34, 0x12]

/-- What it is decoded to at the start of memory. -/
def wordMoveDecoded : Decoded := ⟨⟨.mov, .word, [.imm 0x1234, .reg ⟨.word, 0⟩]⟩, 0, 4⟩

/-- `leal %eax, %eax`, which is no instruction. -/
def registerLea : List Byte := [0x8D, 0xC0]

/-- The word is moved whatever follows it and not before it is complete, and what is no instruction
is none with more bytes behind it. -/
theorem decode_determined_wordMove :
    decode (wordMove ++ [0xFF, 0xFF]) 0 = .ok (some wordMoveDecoded) ∧
      decode [0x66, 0xB8, 0x34] 0 = .ok none ∧
      decode (registerLea ++ wordMove) 0 = .error (.undecodable registerLea) ∧
      ∀ rest d, decode (wordMove ++ rest) 16 = .ok (some d) → d.length = (wordMove ++ rest).length →
        rest = [] := by
  have hmove : decode wordMove 0 = .ok (some wordMoveDecoded) := by decide +kernel
  have hlea : decode registerLea 0 = .error (.undecodable registerLea) := by decide +kernel
  obtain ⟨hbytes, -, -, hcomplete⟩ := decode_determined wordMove 0
  obtain ⟨-, -, happend, hshort⟩ := hbytes wordMoveDecoded hmove
  refine ⟨happend _, hshort 3 (by decide), ?_, fun rest d hd hlen => ?_⟩
  · exact ((decode_determined registerLea 0).2.1 _ hlea).2 wordMove
  · exact hcomplete wordMoveDecoded d rest 16 hmove (by decide) hd hlen

end Ia32
