import Ia32.Proofs.Length

/-!
# Where statements lie

* `Layout.starts_push`, `Layout.indexAt?_push`, `Layout.addressMap_push`: what one more statement
  does to a layout;
* `Layout.offset`: the number of bytes before a statement; `Layout.addressOf_eq`: the address is
  that number; `Layout.indexAt?_iff`: the statement at an address;
* `Program.assemble_ok`: how a program comes from its text;
* `Program.Assembled`: what holds of every program; **`Program.assemble_assembled`**: a text
  assembles to such a program;
* **`Program.Assembled.drop_code`**: the code cut around a statement.
-/

set_option autoImplicit false

namespace Ia32

/-! ## One more statement -/

theorem startsFrom_append (a : Long) (ns : List Nat) (n : Nat) :
    startsFrom a (ns ++ [n]) =
      startsFrom a ns ++ [ns.foldl (fun a n => a + BitVec.ofNat 32 n) a] := by
  induction ns generalizing a with
  | nil => rfl
  | cons m ns ih => rw [List.cons_append, startsFrom, ih, startsFrom, List.cons_append, List.foldl]

namespace Layout

variable (l : Layout) (n : Nat)

/-- **A statement that is pushed** starts at the end of those before it. -/
theorem starts_push : (l.push n).starts = l.starts ++ [l.finish] :=
  startsFrom_append 0 l.lengths n

theorem zipIdx_starts_push :
    (l.push n).starts.zipIdx = l.starts.zipIdx ++ [(l.finish, l.starts.length)] := by
  rw [starts_push, List.zipIdx_append, Nat.zero_add]
  rfl

/-- The statement that is pushed is found at its address, and the others as before. -/
theorem indexAt?_push (a : Long) :
    (l.push n).indexAt? a = if a = l.finish then some l.starts.length else l.indexAt? a := by
  unfold indexAt?
  rw [zipIdx_starts_push, List.reverse_append, List.reverse_singleton, List.singleton_append]
  by_cases ha : a = l.finish
  · rw [if_pos ha, List.find?_cons_of_pos (by simp [ha])]
    rfl
  · rw [if_neg ha, List.find?_cons_of_neg (by simp [Ne.symm ha])]

/-- The address of the statement that is pushed takes the place of an equal one. -/
theorem addressMap_push :
    (l.push n).addressMap =
      (l.addressMap.filter fun s => s.1 != l.finish) ++ [(l.finish, l.starts.length)] := by
  unfold addressMap
  rw [zipIdx_starts_push, List.filter_append, List.filter_filter]
  congr 1
  · refine List.filter_congr fun s hs => ?_
    have hlt : s.2 < l.starts.length := List.snd_lt_of_mem_zipIdx hs
    rw [indexAt?_push]
    by_cases ha : s.1 = l.finish
    · simp [ha, hlt.ne']
    · simp [ha]
  · simp [indexAt?_push]

end Layout

/-! ## Offsets -/

theorem length_startsFrom (a : Long) (ns : List Nat) : (startsFrom a ns).length = ns.length := by
  induction ns generalizing a with
  | nil => rfl
  | cons n ns ih => rw [startsFrom, List.length_cons, ih, List.length_cons]

theorem getElem?_startsFrom {a : Long} {ns : List Nat} {k : Nat} (hk : k < ns.length) :
    (startsFrom a ns)[k]? = some (a + BitVec.ofNat 32 (ns.take k).sum) := by
  induction ns generalizing a k with
  | nil => cases hk
  | cons n ns ih =>
    cases k with
    | zero => simp [startsFrom]
    | succ k =>
      have hk : k < ns.length := by simpa using hk
      rw [startsFrom, List.getElem?_cons_succ, ih hk, List.take_succ_cons, List.sum_cons,
        BitVec.ofNat_add, BitVec.add_assoc]

theorem foldl_add_ofNat (a : Long) (ns : List Nat) :
    ns.foldl (fun a n => a + BitVec.ofNat 32 n) a = a + BitVec.ofNat 32 ns.sum := by
  induction ns generalizing a with
  | nil => simp
  | cons n ns ih => rw [List.foldl_cons, ih, List.sum_cons, BitVec.ofNat_add, BitVec.add_assoc]

namespace Layout

variable (l : Layout) {k j : Nat}

theorem finish_eq : l.finish = BitVec.ofNat 32 l.lengths.sum := by
  rw [finish, foldl_add_ofNat, BitVec.ofNat_eq_ofNat, BitVec.zero_add]

/-- The number of bytes before a statement; for an index that has none, those of the program. -/
def offset (k : Nat) : Nat := (l.lengths.take k).sum

theorem offset_zero : l.offset 0 = 0 := by
  simp [offset]

theorem offset_succ {n : Nat} (hk : l.lengths[k]? = some n) :
    l.offset (k + 1) = l.offset k + n := by
  rw [offset, List.take_add_one, hk, List.sum_append]
  rfl

theorem offset_of_length_le (hk : l.lengths.length ≤ k) : l.offset k = l.lengths.sum := by
  rw [offset, List.take_of_length_le hk]

theorem offset_le_sum (k : Nat) : l.offset k ≤ l.lengths.sum := by
  have h := congrArg List.sum (List.take_append_drop k l.lengths)
  rw [List.sum_append] at h
  unfold offset
  omega

/-- **The address of a statement** is the number of bytes before it. -/
theorem addressOf_eq (k : Nat) : l.addressOf k = BitVec.ofNat 32 (l.offset k) := by
  unfold addressOf starts
  by_cases hk : k < l.lengths.length
  · rw [getElem?_startsFrom hk, Option.getD_some, BitVec.ofNat_eq_ofNat, BitVec.zero_add]
    rfl
  · have hlen : (startsFrom 0 l.lengths).length ≤ k := by
      rw [length_startsFrom]
      omega
    rw [List.getElem?_eq_none hlen, Option.getD_none, finish_eq,
      l.offset_of_length_le (by omega)]

theorem starts_getElem? (hk : k < l.lengths.length) : l.starts[k]? = some (l.addressOf k) := by
  rw [l.addressOf_eq, starts, getElem?_startsFrom hk, BitVec.ofNat_eq_ofNat,
    BitVec.zero_add]
  rfl

theorem toNat_addressOf (hsize : l.lengths.sum < 2 ^ 32) (k : Nat) :
    (l.addressOf k).toNat = l.offset k := by
  have hle := l.offset_le_sum k
  rw [l.addressOf_eq, BitVec.toNat_ofNat, Nat.mod_eq_of_lt (by omega)]

theorem length_starts : l.starts.length = l.lengths.length := length_startsFrom 0 l.lengths

/-- The address of a statement is the sum of the lengths before it, which does not wrap. -/
theorem toNat_of_starts_getElem? {a : Long} (hsize : l.lengths.sum < 2 ^ 32)
    (hk : l.starts[k]? = some a) : k < l.lengths.length ∧ a.toNat = l.offset k := by
  have hlt : k < l.lengths.length := by
    rw [← l.length_starts]
    exact (List.getElem?_eq_some_iff.mp hk).1
  rw [l.starts_getElem? hlt] at hk
  rw [← Option.some.inj hk]
  exact ⟨hlt, l.toNat_addressOf hsize k⟩

theorem offset_lt_offset (hpos : ∀ n ∈ l.lengths, 1 ≤ n) (hjk : j < k)
    (hk : k ≤ l.lengths.length) : l.offset j < l.offset k := by
  have hstep : ∀ i < l.lengths.length, l.offset i < l.offset (i + 1) := by
    intro i hi
    have hn := hpos _ (List.getElem_mem hi)
    rw [l.offset_succ (List.getElem?_eq_getElem hi)]
    omega
  induction k, hjk using Nat.le_induction with
  | base => exact hstep j hk
  | succ k _ ih => exact (ih (by omega)).trans (hstep k hk)

theorem nodup_starts (hsize : l.lengths.sum < 2 ^ 32) (hpos : ∀ n ∈ l.lengths, 1 ≤ n) :
    l.starts.Nodup := by
  rw [List.nodup_iff_getElem?_ne_getElem?]
  intro i j hij hj heq
  rw [l.length_starts] at hj
  rw [l.starts_getElem? hj] at heq
  have hlt := l.offset_lt_offset hpos hij (by omega)
  have hi := (l.toNat_of_starts_getElem? hsize heq).2
  rw [l.toNat_addressOf hsize] at hi
  omega

/-- **The statement at an address**, where no two statements start at one. -/
theorem indexAt?_iff {a : Long} (h : l.starts.Nodup) :
    l.indexAt? a = some k ↔ l.starts[k]? = some a := by
  unfold indexAt?
  rw [Option.map_eq_some_iff]
  constructor
  · rintro ⟨s, hs, rfl⟩
    have hmem := List.mem_reverse.mp (List.mem_of_find?_eq_some hs)
    have ha : s.1 = a := by simpa using List.find?_some hs
    rw [← ha]
    exact List.mem_zipIdx_iff_getElem?.mp hmem
  · intro hk
    have hmem : (a, k) ∈ l.starts.zipIdx := List.mem_zipIdx_iff_getElem?.mpr hk
    cases hfind : l.starts.zipIdx.reverse.find? fun s => s.1 == a with
    | none =>
      have hne := List.find?_eq_none.mp hfind _ (List.mem_reverse.mpr hmem)
      simp at hne
    | some s =>
      have hs := List.mem_reverse.mp (List.mem_of_find?_eq_some hfind)
      have ha : s.1 = a := by simpa using List.find?_some hfind
      refine ⟨s, rfl, ?_⟩
      rw [List.mem_zipIdx_iff_getElem?, ha, ← hk] at hs
      have hlt := (List.getElem?_eq_some_iff.mp hk).1
      exact ((List.getElem?_inj hlt h).mp hs.symm).symm

theorem addressMap_eq (h : l.starts.Nodup) : l.addressMap = l.starts.zipIdx := by
  unfold addressMap
  rw [List.filter_eq_self]
  intro s hs
  rw [beq_iff_eq, l.indexAt?_iff h]
  exact List.mem_zipIdx_iff_getElem?.mp hs

end Layout

/-! ## Programs -/

namespace Program

/-- What holds of every program: its statements were built, and each of them is encoded where the
lengths of those before it put it. -/
structure Assembled (p : Program) : Prop where
  built : ∀ e ∈ p.entries, ∃ body, Statement.ofBody body = .ok e.statement
  lengths : p.layout.lengths = p.entries.map fun e => e.code.length
  bytes : ∀ (k : Nat) (e : Entry), p.entries[k]? = some e →
    e.statement.bytes p.layout k = .ok e.code

theorem encodeEntry_ok {layout : Layout} {k line : Nat} {s : Statement} {e : Entry}
    (h : encodeEntry layout k s line = .ok e) :
    (e.statement, e.line) = (s, line) ∧ s.bytes layout k = .ok e.code := by
  obtain ⟨code, hcode, h⟩ := bind_ok_iff.mp h
  obtain ⟨-, h⟩ := guard_ok_iff.mp h
  cases h
  exact ⟨rfl, onLine_ok_iff.mp hcode⟩

theorem encode_ok {layout : Layout} {k : Nat} {statements : List (Statement × Nat)}
    {entries : List Entry} (h : encode layout k statements = .ok entries) :
    entries.map (fun e => (e.statement, e.line)) = statements ∧
      ∀ (j : Nat) (e : Entry), entries[j]? = some e →
        e.statement.bytes layout (k + j) = .ok e.code := by
  induction statements generalizing k entries with
  | nil =>
    cases h
    exact ⟨rfl, fun j e hj => by simp at hj⟩
  | cons s statements ih =>
    obtain ⟨entry, hentry, h⟩ := bind_ok_iff.mp h
    obtain ⟨rest, hrest, h⟩ := bind_ok_iff.mp h
    cases h
    obtain ⟨hs, hbytes⟩ := encodeEntry_ok hentry
    obtain ⟨rfl, hall⟩ := ih hrest
    refine ⟨by rw [List.map_cons, hs], fun j e hj => ?_⟩
    cases j with
    | zero =>
      obtain rfl : entry = e := by simpa using hj
      rwa [(Prod.mk.inj hs).1]
    | succ j =>
      rw [← Nat.succ_add_eq_add_succ]
      exact hall j e (by simpa using hj)

theorem eq_map_of_forall₂ {α β : Type} {R : α → β → Prop} {f : α → β} {xs : List α} {ys : List β}
    (h : List.Forall₂ R xs ys) (hf : ∀ x ∈ xs, ∀ y, R x y → y = f x) : ys = xs.map f := by
  induction h with
  | nil => rfl
  | @cons x y xs ys hxy _ ih =>
    rw [List.map_cons, hf x List.mem_cons_self y hxy,
      ih fun x hx => hf x (List.mem_cons_of_mem _ hx)]

/-- **How a text is assembled**: its lines are read, the statements built and measured, and the code
found. -/
theorem assemble_ok {text : String} {p : Program} (h : assemble text = .ok p) :
    ∃ source statements, Source.read text = .ok source ∧ build source.statements = .ok statements ∧
      Program.lengths statements = .ok p.layout.lengths ∧
      encode p.layout 0 statements = .ok p.entries ∧
      p.layout.symbols = Symbols.ofDefinitions source.definitions ∧
      p.warnings = redefinitions [] source.definitions := by
  rw [assemble_eq] at h
  obtain ⟨source, hread, h⟩ := bind_ok_iff.mp h
  obtain ⟨statements, hbuild, h⟩ := bind_ok_iff.mp h
  obtain ⟨lengths, hlengths, h⟩ := bind_ok_iff.mp h
  obtain ⟨entries, hencode, h⟩ := bind_ok_iff.mp h
  cases h
  exact ⟨source, statements, hread, hbuild, hlengths, hencode, rfl, rfl⟩

/-- **What a text assembles to.** -/
theorem assemble_assembled {text : String} {p : Program} (h : assemble text = .ok p) :
    p.Assembled := by
  obtain ⟨source, _, -, hbuild, hlengths, hencode, -, -⟩ := assemble_ok h
  obtain ⟨rfl, hbytes⟩ := encode_ok hencode
  refine ⟨fun e he => ?_, ?_, fun k e hk => ?_⟩
  · exact build_ok hbuild _ (List.mem_map_of_mem he)
  · have hall := List.forall₂_map_left_iff.mp (lengths_ok_iff.mp hlengths)
    refine eq_map_of_forall₂ hall fun e he n hn => ?_
    obtain ⟨j, hj⟩ := List.mem_iff_getElem?.mp he
    have hwf : e.statement.WellFormed :=
      build_wellFormed hbuild _ (List.mem_map_of_mem (f := fun e => (e.statement, e.line)) he)
    exact Except.ok.inj (hn.symm.trans (hwf.bytes_length (hbytes j e hj)))
  · rw [← Nat.zero_add k]
    exact hbytes k e hk

namespace Assembled

variable {p : Program} {k : Nat} {e : Entry}

theorem lengths_getElem? (h : p.Assembled) (hk : p.entries[k]? = some e) :
    p.layout.lengths[k]? = some e.code.length := by
  rw [h.lengths, List.getElem?_map, hk]
  rfl

theorem length_lengths (h : p.Assembled) : p.layout.lengths.length = p.entries.length := by
  rw [h.lengths, List.length_map]

theorem length_code (h : p.Assembled) : p.code.length = p.layout.lengths.sum := by
  rw [h.lengths, code, List.length_flatMap]

theorem length_take (h : p.Assembled) (k : Nat) :
    ((p.entries.take k).flatMap Entry.code).length = p.layout.offset k := by
  rw [Layout.offset, h.lengths, ← List.map_take, List.length_flatMap]

/-- **The code cut around a statement**: before it lie as many bytes as its offset says. -/
theorem drop_code (h : p.Assembled) (hk : p.entries[k]? = some e) :
    ∃ rest, p.code.drop (p.layout.offset k) = e.code ++ rest := by
  obtain ⟨hlt, hget⟩ := List.getElem?_eq_some_iff.mp hk
  refine ⟨(p.entries.drop (k + 1)).flatMap Entry.code, ?_⟩
  have hsplit : p.code = (p.entries.take k).flatMap Entry.code ++
      (e.code ++ (p.entries.drop (k + 1)).flatMap Entry.code) := by
    rw [code, ← hget, ← List.flatMap_cons, ← List.drop_eq_getElem_cons hlt, ← List.flatMap_append,
      List.take_append_drop]
  rw [hsplit, List.drop_left' (h.length_take k)]

theorem toNat_add_addressOf (h : p.Assembled) {load : Long}
    (hfits : load.toNat + p.code.length < 2 ^ 32) (k : Nat) :
    (load + p.layout.addressOf k).toNat = load.toNat + p.layout.offset k := by
  have hsum := h.length_code
  have hle := p.layout.offset_le_sum k
  rw [p.layout.addressOf_eq, toNat_add_ofNat (by omega)]

theorem wellFormed (h : p.Assembled) {i : Instruction} (hk : p.entries[k]? = some e)
    (hi : e.statement = .instruction i) : i.WellFormed := by
  obtain ⟨body, hbody⟩ := h.built e (List.mem_of_getElem? hk)
  rw [hi] at hbody
  exact Instruction.wellFormed_of_ofBody hbody

theorem instruction_bytes (h : p.Assembled) {i : Instruction} (hk : p.entries[k]? = some e)
    (hi : e.statement = .instruction i) : i.bytes p.layout k = .ok e.code := by
  have hbytes := h.bytes k e hk
  rwa [hi] at hbytes

end Assembled

end Program

end Ia32
