import Ia32.Proofs.Placement

/-!
# Programs without their lines

The numbers of lines are for complaints and warnings only. What a text assembles to is said without
them.

* `Outline`: the statements of a text and the labels in front of them; `Outline.Reads`: the texts
  that have an outline; `Source.exists_read_iff`: they are those that are read;
* `Outline.symbols`: the labels of an outline with what they name;
* `Outline.Assembles`: the statements and the code of an outline in a layout;
* **`Program.exists_assemble_iff`**: what a text assembles to, by its outline.
-/

set_option autoImplicit false

namespace Ia32

/-! ## Outlines -/

/-- The statements of a text with the labels in front of them, and the labels after the last. -/
structure Outline where
  statements : List (List String × RawBody)
  trailing : List String

/-- The outline of what was read. -/
def Source.outline (s : Source) : Outline :=
  ⟨s.statements.map fun r => (r.labels, r.body), s.trailing.map Prod.fst⟩

namespace Outline

/-- The outline of lines, the first of which follow labels that wait for their statement. -/
def ofLines (waiting : List String) : List Line → Outline
  | [] => ⟨[], waiting⟩
  | line :: rest =>
    match line.body with
    | none => ofLines (waiting ++ line.labels) rest
    | some body =>
      let o := ofLines [] rest
      { o with statements := (waiting ++ line.labels, body) :: o.statements }

/-- A text all of whose lines can be read, and say what an outline says. -/
def Reads (o : Outline) (text : List Char) : Prop :=
  ∃ ls, List.Forall₂ (fun cs line => Line.read cs = .ok line) (Text.lines text) ls ∧
    ofLines [] ls = o

end Outline

theorem Source.outline_ofLines (waiting : List (String × Nat)) (ls : List (Nat × Line)) :
    (Source.ofLines waiting ls).outline =
      Outline.ofLines (waiting.map Prod.fst) (ls.map Prod.snd) := by
  induction ls generalizing waiting with
  | nil => rfl
  | cons l ls ih =>
    obtain ⟨n, labels, body⟩ := l
    have hlabels : (waiting ++ labels.map (·, n)).map Prod.fst =
        waiting.map Prod.fst ++ labels := by
      rw [List.map_append, List.map_map]
      congr 1
      exact List.map_id labels
    cases body with
    | none =>
      have h := ih (waiting ++ labels.map (·, n))
      rw [hlabels] at h
      exact h
    | some body =>
      have h := ih []
      rw [List.map_cons, Source.ofLines, Outline.ofLines]
      dsimp only
      rw [List.map_nil] at h
      rw [← h, ← hlabels]
      rfl

theorem exists_readLines_iff {n : Nat} {ls : List (List Char)} {xs : List Line} :
    (∃ nls, readLines n ls = .ok nls ∧ nls.map Prod.snd = xs) ↔
      List.Forall₂ (fun cs line => Line.read cs = .ok line) ls xs := by
  induction ls generalizing n xs with
  | nil =>
    rw [List.forall₂_nil_left_iff]
    constructor
    · rintro ⟨nls, h, rfl⟩
      cases h
      rfl
    · rintro rfl
      exact ⟨[], rfl, rfl⟩
  | cons l ls ih =>
    rw [List.forall₂_cons_left_iff]
    constructor
    · rintro ⟨nls, h, rfl⟩
      obtain ⟨line, hline, h⟩ := bind_ok_iff.mp h
      obtain ⟨rest, hrest, h⟩ := bind_ok_iff.mp h
      cases h
      exact ⟨line, _, onLine_ok_iff.mp hline, ih.mp ⟨rest, hrest, rfl⟩, rfl⟩
    · rintro ⟨line, xs, hline, hrest, rfl⟩
      obtain ⟨nls, hnls, rfl⟩ := (ih (n := n + 1)).mpr hrest
      refine ⟨(n, line) :: nls, ?_, rfl⟩
      refine bind_ok_iff.mpr ⟨line, onLine_ok_iff.mpr hline, ?_⟩
      exact bind_ok_iff.mpr ⟨nls, hnls, rfl⟩

/-- **The texts that are read** are those all of whose lines are. -/
theorem Source.exists_read_iff {text : String} {o : Outline} :
    (∃ s, Source.read text = .ok s ∧ s.outline = o) ↔ o.Reads text.toList := by
  unfold Source.read Outline.Reads
  simp only [map_ok_iff, ← exists_readLines_iff (n := 1)]
  constructor
  · rintro ⟨_, ⟨nls, h, rfl⟩, rfl⟩
    exact ⟨_, ⟨nls, h, rfl⟩, (Source.outline_ofLines [] nls).symm⟩
  · rintro ⟨_, ⟨nls, h, rfl⟩, rfl⟩
    exact ⟨_, ⟨nls, h, rfl⟩, Source.outline_ofLines [] nls⟩

/-! ## Labels -/

/-- The labels of statements with the indices of these, from the index of the first. -/
def labelsFrom : Nat → List (List String × RawBody) → List (String × Nat)
  | _, [] => []
  | i, s :: ss => s.1.map (·, i) ++ labelsFrom (i + 1) ss

/-- Labels defined one after the other. -/
def Symbols.ofPairs (ds : List (String × Nat)) : Symbols :=
  ds.foldl (fun symbols d => symbols.define d.1 d.2) []

namespace Outline

/-- The labels of an outline with the indices that they name, in order. -/
def definitions (o : Outline) : List (String × Nat) :=
  labelsFrom 0 o.statements ++ o.trailing.map (·, o.statements.length)

/-- The labels of an outline, of several definitions of a label the last. -/
def symbols (o : Outline) : Symbols := .ofPairs o.definitions

end Outline

theorem map_definitionsFrom (i : Nat) (ss : List RawStatement) :
    (definitionsFrom i ss).map (fun d => (d.name, d.index)) =
      labelsFrom i (ss.map fun r => (r.labels, r.body)) := by
  induction ss generalizing i with
  | nil => rfl
  | cons s ss ih =>
    rw [definitionsFrom, List.map_append, ih, List.map_map]
    rfl

theorem Source.map_definitions (s : Source) :
    s.definitions.map (fun d => (d.name, d.index)) = s.outline.definitions := by
  rw [definitions, List.map_append, map_definitionsFrom, List.map_map, Outline.definitions, outline,
    List.map_map, List.length_map]
  rfl

theorem Source.symbols_outline (s : Source) :
    Symbols.ofDefinitions s.definitions = s.outline.symbols := by
  unfold Outline.symbols Symbols.ofPairs Symbols.ofDefinitions
  rw [← s.map_definitions, List.foldl_map]

/-! ## Assembling -/

/-- The statements of a program, each with its code. -/
def Program.pieces (p : Program) : List (Statement × List Byte) :=
  p.entries.map fun e => (e.statement, e.code)

/-- Statements and code that an outline assembles to: each statement is built and encoded, in the
layout that the labels and all lengths make. -/
structure Outline.Assembles (o : Outline) (layout : Layout)
    (pieces : List (Statement × List Byte)) : Prop where
  built : List.Forall₂ (fun r e => Statement.ofBody r.2 = .ok e.1) o.statements pieces
  symbols : layout.symbols = o.symbols
  lengths : layout.lengths = pieces.map fun e => e.2.length
  bytes : ∀ (k : Nat) (e : Statement × List Byte), pieces[k]? = some e →
    e.1.bytes layout k = .ok e.2

theorem Outline.Assembles.wellFormed {o : Outline} {layout : Layout}
    {pieces : List (Statement × List Byte)} (h : o.Assembles layout pieces)
    {e : Statement × List Byte} (he : e ∈ pieces) : e.1.WellFormed := by
  obtain ⟨r, -, hr⟩ := exists_of_forall₂ h.built he
  exact Statement.wellFormed_of_ofBody hr

namespace Program

theorem code_eq_flatMap (p : Program) : p.code = p.pieces.flatMap Prod.snd := by
  rw [code, pieces, List.flatMap_map]

theorem length_pieces (p : Program) : p.pieces.length = p.entries.length := List.length_map _

theorem build_ok_iff {raw : List RawStatement} {statements : List (Statement × Nat)} :
    build raw = .ok statements ↔
      List.Forall₂ (fun r s => Statement.ofBody r.body = .ok s.1 ∧ s.2 = r.line) raw
        statements := by
  rw [build, mapM_ok_iff]
  have hiff : ∀ (r : RawStatement) (s : Statement × Nat),
      (do return (← onLine r.line (Statement.ofBody r.body), r.line)) = .ok s ↔
        Statement.ofBody r.body = .ok s.1 ∧ s.2 = r.line := by
    rintro r ⟨s, line⟩
    rw [bind_ok_iff]
    constructor
    · rintro ⟨s', hs, h⟩
      cases h
      exact ⟨onLine_ok_iff.mp hs, rfl⟩
    · rintro ⟨hs, rfl⟩
      exact ⟨s, onLine_ok_iff.mpr hs, rfl⟩
  constructor
  · exact fun h => h.imp fun r s => (hiff r s).mp
  · exact fun h => h.imp fun r s => (hiff r s).mpr

/-- Statements that have code of the lengths that were foreseen are encoded. -/
theorem exists_encode {layout : Layout} {k : Nat} {statements : List (Statement × Nat)}
    {pieces : List (Statement × List Byte)}
    (hs : statements.map Prod.fst = pieces.map Prod.fst)
    (hlengths : layout.lengths.drop k = pieces.map fun e => e.2.length)
    (hbytes : ∀ (j : Nat) (e : Statement × List Byte), pieces[j]? = some e →
      e.1.bytes layout (k + j) = .ok e.2) :
    ∃ entries, encode layout k statements = .ok entries ∧
      entries.map (fun e => (e.statement, e.code)) = pieces := by
  -- the induction is on the statements that are left
  induction statements generalizing k pieces with
  | nil =>
    obtain rfl : pieces = [] := List.map_eq_nil_iff.mp hs.symm
    exact ⟨[], rfl, rfl⟩
  | cons s statements ih =>
    obtain ⟨s, line⟩ := s
    rcases pieces with _ | ⟨⟨s', code⟩, pieces⟩
    · cases hs
    obtain ⟨rfl, hstatements⟩ := List.cons_eq_cons.mp hs
    have hcode : s.bytes layout k = .ok code := hbytes 0 _ rfl
    have hlength : layout.lengths[k]? = some code.length := by
      rw [← List.head?_drop, hlengths]
      rfl
    have hrest : layout.lengths.drop (k + 1) = pieces.map fun e => e.2.length := by
      rw [← List.tail_drop, hlengths]
      rfl
    obtain ⟨entries, hentries, rfl⟩ := ih hstatements hrest fun j e hj => by
      have h := hbytes (j + 1) e (by simpa using hj)
      rwa [← Nat.succ_add_eq_add_succ] at h
    refine ⟨⟨s, line, code⟩ :: entries, ?_, rfl⟩
    refine bind_ok_iff.mpr ⟨⟨s, line, code⟩, ?_, bind_ok_iff.mpr ⟨entries, hentries, rfl⟩⟩
    refine bind_ok_iff.mpr ⟨code, onLine_ok_iff.mpr hcode, guard_ok_iff.mpr ⟨?_, rfl⟩⟩
    rw [hlength, Option.getD_some]
    exact not_not.mpr rfl

/-- **What a text assembles to**, by its outline. -/
theorem exists_assemble_iff {text : String} {layout : Layout}
    {pieces : List (Statement × List Byte)} :
    (∃ p, assemble text = .ok p ∧ p.layout = layout ∧ p.pieces = pieces) ↔
      ∃ o : Outline, o.Reads text.toList ∧ o.Assembles layout pieces := by
  constructor
  · rintro ⟨p, h, rfl, rfl⟩
    have hassembled := assemble_assembled h
    obtain ⟨source, _, hread, hbuild, -, hencode, hsymbols, -⟩ := assemble_ok h
    obtain ⟨rfl, -⟩ := encode_ok hencode
    refine ⟨source.outline, Source.exists_read_iff.mp ⟨source, hread, rfl⟩, ?_, ?_, ?_, ?_⟩
    · have hbuilt := List.forall₂_map_right_iff.mp (build_ok_iff.mp hbuild)
      rw [Source.outline, pieces, List.forall₂_map_left_iff, List.forall₂_map_right_iff]
      exact hbuilt.imp fun _ _ => And.left
    · rw [hsymbols, source.symbols_outline]
    · rw [hassembled.lengths, pieces, List.map_map]
      rfl
    · intro k e hk
      rw [pieces, List.getElem?_map, Option.map_eq_some_iff] at hk
      obtain ⟨entry, hentry, rfl⟩ := hk
      exact hassembled.bytes k entry hentry
  · rintro ⟨o, hreads, ho⟩
    obtain ⟨source, hread, rfl⟩ := Source.exists_read_iff.mpr hreads
    obtain ⟨symbols, lengths⟩ := layout
    obtain rfl : symbols = source.outline.symbols := ho.symbols
    obtain rfl : lengths = pieces.map fun e => e.2.length := ho.lengths
    -- every statement has the line on which it was read
    have hbuild : ∃ statements, build source.statements = .ok statements ∧
        statements.map Prod.fst = pieces.map Prod.fst := by
      have hbuilt := ho.built
      rw [Source.outline, List.forall₂_map_left_iff] at hbuilt
      generalize source.statements = raw at hbuilt
      clear ho hreads hread
      induction hbuilt with
      | nil => exact ⟨[], rfl, rfl⟩
      | @cons r e raw pieces hr _ ih =>
        obtain ⟨statements, hstatements, hmap⟩ := ih
        refine ⟨(e.1, r.line) :: statements, ?_, by rw [List.map_cons, hmap, List.map_cons]⟩
        exact build_ok_iff.mpr (.cons ⟨hr, rfl⟩ (build_ok_iff.mp hstatements))
    obtain ⟨statements, hbuild, hmap⟩ := hbuild
    have hlengths : Program.lengths statements = .ok (pieces.map fun e => e.2.length) := by
      rw [lengths_ok_iff, ← List.forall₂_map_left_iff (f := Prod.fst)
        (R := fun (s : Statement) n => s.length = .ok n), hmap, List.forall₂_map_left_iff,
        List.forall₂_map_right_iff, List.forall₂_same]
      intro e he
      obtain ⟨k, hk⟩ := List.mem_iff_getElem?.mp he
      exact (ho.wellFormed he).bytes_length (ho.bytes k e hk)
    obtain ⟨entries, hencode, hpieces⟩ := exists_encode (k := 0) hmap rfl fun j e hj => by
      rw [Nat.zero_add]
      exact ho.bytes j e hj
    refine ⟨⟨text, entries, _, redefinitions [] source.definitions⟩, ?_, rfl, hpieces⟩
    rw [assemble_eq]
    refine bind_ok_iff.mpr ⟨source, hread, bind_ok_iff.mpr ⟨statements, hbuild, ?_⟩⟩
    refine bind_ok_iff.mpr ⟨_, hlengths, ?_⟩
    rw [source.symbols_outline]
    exact bind_ok_iff.mpr ⟨entries, hencode, rfl⟩

end Program

end Ia32
