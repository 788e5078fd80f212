import Ia32.Assembly.Listing
import Ia32.Proofs.Lines

/-!
# Metadata of a program

The statements, their lines, their addresses and their labels are kept side by side. They agree.

* `Program.Contiguous`: the statements lie one after the other and fill the program;
* `Program.Located`: a statement is found by its address, and is that of its line;
* `Symbols.Records`, `Mark.Names`: labels name the statements behind them;
* `Program.ReversesSymbols`: statements have their labels;
* **`Program.metadata_consistent`**: all of it for every text that is assembled.
-/

set_option autoImplicit false

namespace Ia32

/-! ## Statements and their lines -/

namespace Program

variable {text : String} {p : Program}

/-- **The statements of a program** are those of the text, each on its line. -/
theorem forall₂_bodies (h : assemble text = .ok p) :
    List.Forall₂ (fun b e => Statement.ofBody b.1 = .ok e.statement ∧ e.line = b.2)
      (Source.bodies text) p.entries := by
  obtain ⟨source, statements, hread, hbuild, -, hencode, -, -⟩ := assemble_ok h
  obtain ⟨rfl, -⟩ := encode_ok hencode
  exact List.forall₂_map_right_iff.mp (Source.forall₂_bodies hread hbuild)

theorem length_bodies (h : assemble text = .ok p) :
    (Source.bodies text).length = p.entries.length := (forall₂_bodies h).length_eq

theorem one_le_of_mem_lengths (h : assemble text = .ok p) :
    ∀ n ∈ p.layout.lengths, 1 ≤ n := by
  have hassembled := assemble_assembled h
  intro n hn
  rw [hassembled.lengths] at hn
  obtain ⟨e, he, rfl⟩ := List.mem_map.mp hn
  obtain ⟨body, hbody⟩ := hassembled.built e he
  obtain ⟨k, hk⟩ := List.mem_iff_getElem?.mp he
  have hwf := Statement.wellFormed_of_ofBody hbody
  exact Statement.length_pos hbody (hwf.bytes_length (hassembled.bytes k e hk))

end Program

/-! ## Addresses -/

namespace Program

/-- The statements of a program lie one after the other, from address zero on, and fill it. Each of
them has a byte at least, and its bytes are where its address and its length say. -/
structure Contiguous (p : Program) : Prop where
  length_starts : p.layout.starts.length = p.entries.length
  length_lengths : p.layout.lengths.length = p.entries.length
  first : p.entries ≠ [] → p.layout.starts[0]? = some 0
  next : ∀ (k n : Nat) (a b : Long), p.layout.starts[k]? = some a → p.layout.lengths[k]? = some n →
    p.layout.starts[k + 1]? = some b → b.toNat = a.toNat + n
  positive : ∀ n ∈ p.layout.lengths, 1 ≤ n
  sum_lengths : p.layout.lengths.sum = p.code.length
  code : ∀ (k n : Nat) (e : Entry) (a : Long), p.entries[k]? = some e →
    p.layout.starts[k]? = some a → p.layout.lengths[k]? = some n →
      e.code.length = n ∧ (p.code.drop a.toNat).take n = e.code

/-- The statements of a program are those that are written, in their order. The address of a
statement leads to it and to its line, and no other address leads to a statement. -/
structure Located (p : Program) (bodies : List (RawBody × Nat)) : Prop where
  statements : List.Forall₂ (fun b e => Statement.ofBody b.1 = .ok e.statement ∧ e.line = b.2)
    bodies p.entries
  indexAt? : ∀ (a : Long) (k : Nat), p.layout.indexAt? a = some k ↔ p.layout.starts[k]? = some a
  addressMap : p.layout.addressMap = p.layout.starts.zipIdx
  lineAt? : ∀ (k : Nat) (b : RawBody × Nat), bodies[k]? = some b →
    ∃ a, p.layout.starts[k]? = some a ∧ p.lineAt? a = some b.2

variable {text : String} {p : Program}

theorem contiguous (h : assemble text = .ok p) (hsize : p.code.length < 2 ^ 32) :
    p.Contiguous := by
  have hassembled := assemble_assembled h
  rw [hassembled.length_code] at hsize
  refine ⟨?_, hassembled.length_lengths, ?_, ?_, one_le_of_mem_lengths h,
    hassembled.length_code.symm, ?_⟩
  · rw [Layout.length_starts, hassembled.length_lengths]
  · intro hne
    have hpos : 0 < p.layout.lengths.length := by
      rw [hassembled.length_lengths]
      exact List.length_pos_iff.mpr hne
    rw [p.layout.starts_getElem? hpos, p.layout.addressOf_eq, p.layout.offset_zero]
    rfl
  · intro k n a b ha hn hb
    rw [(p.layout.toNat_of_starts_getElem? hsize ha).2,
      (p.layout.toNat_of_starts_getElem? hsize hb).2, p.layout.offset_succ hn]
  · intro k n e a he ha hn
    have hlength := hassembled.lengths_getElem? he
    obtain ⟨rest, hrest⟩ := hassembled.drop_code he
    rw [hlength] at hn
    rw [(p.layout.toNat_of_starts_getElem? hsize ha).2, hrest, ← Option.some.inj hn]
    exact ⟨rfl, List.take_left⟩

theorem located (h : assemble text = .ok p) (hsize : p.code.length < 2 ^ 32) :
    p.Located (Source.bodies text) := by
  have hassembled := assemble_assembled h
  have hbodies := forall₂_bodies h
  rw [hassembled.length_code] at hsize
  have hnodup := p.layout.nodup_starts hsize (one_le_of_mem_lengths h)
  refine ⟨hbodies, fun a k => p.layout.indexAt?_iff hnodup, p.layout.addressMap_eq hnodup, ?_⟩
  intro k b hb
  obtain ⟨hk, hget⟩ := List.getElem?_eq_some_iff.mp hb
  have hk' : k < p.entries.length := by rwa [← length_bodies h]
  have hstart := p.layout.starts_getElem? (hassembled.length_lengths ▸ hk')
  refine ⟨p.layout.addressOf k, hstart, ?_⟩
  have hline : p.entries[k].line = b.2 := by
    rw [← hget]
    exact (hbodies.get hk hk').2
  unfold lineAt?
  rw [(p.layout.indexAt?_iff hnodup).mpr hstart, Option.bind_eq_bind, Option.bind_some,
    List.getElem?_eq_getElem hk', Option.bind_eq_bind, Option.bind_some, hline]
  rfl

end Program

/-! ## Labels -/

/-- A table of labels lists those that are written in the order of their first definitions, and each
names what the last definition of it says. -/
structure Symbols.Records (symbols : Symbols) (ms : List Mark) : Prop where
  names : Symbols.names symbols = (ms.map Mark.name).eraseDups
  lookup : ∀ name, symbols.lookup name = (nearest name ms).map Mark.index

/-- A label is one of its line, and names the statement behind it, which is the first that is on its
line or on a later one, and where there is none, the end. -/
structure Mark.Names (m : Mark) (text : String) : Prop where
  written : ∃ cs line, (cs, m.line) ∈ Source.numbered text ∧ Line.read cs = .ok line ∧
    m.name ∈ line.labels
  le : m.index ≤ (Source.bodies text).length
  le_iff : ∀ (j : Nat) (b : RawBody × Nat), (Source.bodies text)[j]? = some b →
    (m.index ≤ j ↔ m.line ≤ b.2)
  next : m.next = (Source.bodies text)[m.index]?.map Prod.snd

theorem Source.names_of_mem_marks {text : String} {m : Mark} (hm : m ∈ marks text) :
    m.Names text :=
  ⟨exists_line_of_mem_marks hm, index_le_length hm, fun _ _ hb => index_le_iff hm hb, next_eq hm⟩

namespace Program

/-- The labels of statements are those whose statement it is: each statement that has a label is
listed once, in the order of the statements, with the last one in the table of labels. -/
structure ReversesSymbols (p : Program) : Prop where
  increasing : (p.reverseSymbols.map Prod.fst).Pairwise (· < ·)
  last : ∀ k, p.reverseSymbols.lookup k = (p.layout.symbols.labelsAt k).getLast?
  defined : ∀ k, (∃ name, p.reverseSymbols.lookup k = some name) ↔
    ∃ name, p.layout.symbols.lookup name = some k
  inverse : ∀ k name, p.reverseSymbols.lookup k = some name →
    p.layout.symbols.lookup name = some k

variable {text : String} {p : Program}

/-- **The labels of a program** are defined one after the other as they are written. -/
theorem symbols_eq (h : assemble text = .ok p) :
    p.layout.symbols = .ofPairs ((Source.marks text).map fun m => (m.name, m.index)) := by
  obtain ⟨source, -, hread, -, -, -, hsymbols, -⟩ := assemble_ok h
  rw [hsymbols, Source.symbols_eq hread]

theorem records (h : assemble text = .ok p) :
    p.layout.symbols.Records (Source.marks text) := by
  rw [symbols_eq h]
  constructor
  · rw [Symbols.names_ofPairs, Symbols.names, List.map_map]
    rfl
  · intro name
    rw [Symbols.lookup_ofPairs_eq_findRev?, List.findRev?_eq_find?_reverse,
      find?_reverse_map _ (fun d : String × Nat => d.1 == name) (fun _ => rfl), Option.map_map]
    rfl

theorem nodup_names_symbols (h : assemble text = .ok p) :
    (Symbols.names p.layout.symbols).Nodup := by
  rw [symbols_eq h]
  exact Symbols.nodup_names_ofPairs _

theorem lookup_le (h : assemble text = .ok p) {name : String} {k : Nat}
    (hk : p.layout.symbols.lookup name = some k) : k ≤ p.entries.length := by
  rw [(records h).lookup] at hk
  obtain ⟨m, hm, rfl⟩ := Option.map_eq_some_iff.mp hk
  rw [nearest, List.findRev?_eq_find?_reverse] at hm
  rw [← length_bodies h]
  exact Source.index_le_length (List.mem_reverse.mp (List.mem_of_find?_eq_some hm))

theorem lookup_filterMap {α : Type} (f : Nat → Option α) (ks : List Nat) (k : Nat) :
    (ks.filterMap fun i => (f i).map (i, ·)).lookup k = if k ∈ ks then f k else none := by
  induction ks with
  | nil => rfl
  | cons i ks ih =>
    rw [List.filterMap_cons]
    cases hf : f i with
    | none =>
      refine ih.trans ?_
      by_cases hki : k = i
      · simp [hki, hf]
      · simp [hki]
    | some a =>
      refine List.lookup_cons.trans ?_
      by_cases hki : k = i
      · simp [hki, hf]
      · simp [beq_eq_false_iff_ne.mpr hki, hki, ih]

theorem reversesSymbols (h : assemble text = .ok p) : p.ReversesSymbols := by
  have hnodup := nodup_names_symbols h
  have hlast : ∀ k, p.reverseSymbols.lookup k = (p.layout.symbols.labelsAt k).getLast? := by
    intro k
    have hname : p.labelAt? k = (p.layout.symbols.labelsAt k).getLast? := by
      rw [labelAt?, Symbols.nameAt?, Symbols.labelsAt, Symbols.names, List.getLast?_map,
        List.getLast?_filter]
    rw [reverseSymbols, lookup_filterMap]
    by_cases hk : k ∈ List.range (p.entries.length + 1)
    · rw [if_pos hk, hname]
    · -- behind the end there is no label
      rw [if_neg hk]
      cases hlabel : (p.layout.symbols.labelsAt k).getLast? with
      | none => rfl
      | some name =>
        have hmem := List.mem_of_getLast? hlabel
        have hle := lookup_le h ((Symbols.mem_labelsAt hnodup).mp hmem)
        exact absurd (List.mem_range.mpr (by omega)) hk
  have hinverse : ∀ k name, p.reverseSymbols.lookup k = some name →
      p.layout.symbols.lookup name = some k := by
    intro k name hname
    rw [hlast] at hname
    exact (Symbols.mem_labelsAt hnodup).mp (List.mem_of_getLast? hname)
  refine ⟨?_, hlast, fun k => ⟨?_, ?_⟩, hinverse⟩
  · rw [List.pairwise_map]
    refine pairwise_filterMap (m := id) (fun i b hb => ?_) List.pairwise_lt_range
    obtain ⟨_, -, rfl⟩ := Option.map_eq_some_iff.mp hb
    rfl
  · rintro ⟨name, hname⟩
    exact ⟨name, hinverse k name hname⟩
  · rintro ⟨name, hname⟩
    have hmem := (Symbols.mem_labelsAt hnodup).mpr hname
    rw [hlast]
    exact ⟨_, List.getLast?_eq_some_getLast (List.ne_nil_of_mem hmem)⟩

/-! ## Main result -/

/-- **The metadata of a program are consistent.** The statements lie one after the other and are
found by their addresses, with their lines; the labels are those that are written, and each of them
names the statement behind its last definition; and the labels of statements are the other way
round. -/
theorem metadata_consistent (h : assemble text = .ok p) (hsize : p.code.length < 2 ^ 32) :
    p.Contiguous ∧ p.Located (Source.bodies text) ∧ p.layout.symbols.Records (Source.marks text) ∧
      (∀ m ∈ Source.marks text, m.Names text) ∧ p.ReversesSymbols :=
  ⟨contiguous h hsize, located h hsize, records h, fun _ => Source.names_of_mem_marks,
    reversesSymbols h⟩

/-- Three statements, of which the first has two labels. One of these is defined again, on a line of
its own, and one label stands behind the last statement. -/
def relabelled : Program where
  text := "a: b: .long 7\nc: nop\na:\nnop\nd:"
  entries := [⟨.directive ⟨".long", .long, [7]⟩, 1, [7, 0, 0, 0]⟩,
    ⟨.instruction ⟨"nop", ⟨.plain .nop, .long, []⟩⟩, 2, [0x90]⟩,
    ⟨.instruction ⟨"nop", ⟨.plain .nop, .long, []⟩⟩, 4, [0x90]⟩]
  layout := ⟨[("a", 2), ("b", 0), ("c", 1), ("d", 3)], [4, 1, 1]⟩
  warnings := [⟨.redefined "a", 4⟩, ⟨.alreadyDefined, 1⟩]

theorem assemble_relabelled : assemble relabelled.text = .ok relabelled := by
  decide +kernel

/-- The first statement of this program is left with its second label, and the last statement has
the label that is defined again. -/
theorem metadata_consistent_relabelled :
    relabelled.Contiguous ∧ relabelled.Located (Source.bodies relabelled.text) ∧
      relabelled.layout.symbols.Records (Source.marks relabelled.text) ∧
      relabelled.ReversesSymbols ∧
      relabelled.reverseSymbols = [(0, "b"), (1, "c"), (2, "a"), (3, "d")] := by
  obtain ⟨hcontiguous, hlocated, hrecords, -, hreverses⟩ :=
    metadata_consistent assemble_relabelled (by decide)
  exact ⟨hcontiguous, hlocated, hrecords, hreverses, by decide⟩

end Program

end Ia32
