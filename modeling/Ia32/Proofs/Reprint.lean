import Ia32.Proofs.Labels
import Ia32.Proofs.Rebuilt

/-!
# Programs written again

* `Line.Readable`, `Outline.Readable`: labels that were read are names;
* `printedFrom`, `Outline.ofStatements`: statements in print, each behind the labels that are chosen
  for its index, and what they say; **`Outline.ofStatements_reads`**: they are read as they were;
* `Outline.Assembles.ofStatements`: they assemble to what they were, and every label names what it
  named;
* `Program.reprint`, **`Program.assemble_reprint`**: a program in print assembles to the same
  program.
-/

set_option autoImplicit false

namespace Ia32

/-! ## What was read -/

theorem isName_of_mem_takeLabels {ps : List (List Char)} {name : String}
    (h : name ∈ (takeLabels ps).1) : isName name.toList = true := by
  fun_induction takeLabels ps with
  | case1 | case2 | case4 => cases h
  | case3 p q ps hname labels rest heq ih =>
    rcases List.mem_cons.mp h with rfl | h
    · rwa [String.toList_ofList]
    · rw [heq] at ih
      exact ih h

/-- Lines as they are read. -/
structure Line.Readable (line : Line) : Prop where
  labels : ∀ name ∈ line.labels, isName name.toList = true
  body : ∀ body, line.body = some body → body.Readable

theorem Line.readable_of_read {cs : List Char} {line : Line} (h : Line.read cs = .ok line) :
    line.Readable := by
  have hlabels := fun name => @isName_of_mem_takeLabels (Text.splitOn ':' (dropComment cs)) name
  unfold Line.read at h
  generalize takeLabels (Text.splitOn ':' (dropComment cs)) = taken at h hlabels
  obtain ⟨labels, rest⟩ := taken
  dsimp only at h
  split at h
  · cases h
    exact ⟨fun name => hlabels name, nofun⟩
  · obtain ⟨body, hbody, h⟩ := bind_ok_iff.mp h
    cases h
    refine ⟨fun name => hlabels name, fun b hb => ?_⟩
    obtain rfl : body = b := Option.some.inj hb
    exact readable_of_readBody hbody

namespace Outline

/-- Outlines as they are read. -/
structure Readable (o : Outline) : Prop where
  statements : ∀ s ∈ o.statements, (∀ name ∈ s.1, isName name.toList = true) ∧ s.2.Readable
  trailing : ∀ name ∈ o.trailing, isName name.toList = true

theorem readable_ofLines {waiting : List String} {ls : List Line}
    (hwaiting : ∀ name ∈ waiting, isName name.toList = true) (hls : ∀ line ∈ ls, line.Readable) :
    (ofLines waiting ls).Readable := by
  induction ls generalizing waiting with
  | nil => exact ⟨nofun, hwaiting⟩
  | cons line ls ih =>
    have hline := hls line List.mem_cons_self
    have hrest : ∀ l ∈ ls, l.Readable := fun l hl => hls l (List.mem_cons_of_mem _ hl)
    have hlabels : ∀ name ∈ waiting ++ line.labels, isName name.toList = true := fun name hname =>
      (List.mem_append.mp hname).elim (hwaiting name) (hline.labels name)
    unfold ofLines
    split
    · exact ih hlabels hrest
    · next body hbody =>
      have hnone : ∀ name ∈ ([] : List String), isName name.toList = true := nofun
      obtain ⟨hstatements, htrailing⟩ := ih hnone hrest
      refine ⟨fun s hs => ?_, htrailing⟩
      rcases List.mem_cons.mp hs with rfl | hs
      · exact ⟨hlabels, hline.body body hbody⟩
      · exact hstatements s hs

/-- **The outline of a text** has names for labels, and statements as they are read. -/
theorem Reads.readable {o : Outline} {cs : List Char} (h : o.Reads cs) : o.Readable := by
  obtain ⟨ls, hls, rfl⟩ := h
  refine readable_ofLines nofun fun line hline => ?_
  obtain ⟨cs, -, hread⟩ := exists_of_forall₂ hls hline
  exact Line.readable_of_read hread

theorem Readable.isName_of_mem_definitions {o : Outline} (h : o.Readable) {d : String × Nat}
    (hd : d ∈ o.definitions) : isName d.1.toList = true := by
  rcases mem_definitions_iff.mp hd with ⟨s, hs, hname⟩ | ⟨hname, -⟩
  · exact (h.statements s (List.mem_of_getElem? hs)).1 d.1 hname
  · exact h.trailing d.1 hname

end Outline

/-! ## Statements in print -/

/-- Statements in print, from the index of the first: a line each behind the labels that are chosen
for its index, and a last line of the labels for the index after them. -/
def printedFrom (labels : Nat → List String) : Nat → List Statement → List Char
  | k, [] => labelled (labels k) []
  | k, s :: ss => labelled (labels k) s.text.toList ++ '\n' :: printedFrom labels (k + 1) ss

namespace Outline

/-- What statements in print say: each behind the labels that are chosen for its index. -/
def ofStatements (labels : Nat → List String) : Nat → List Statement → Outline
  | k, [] => ⟨[], labels k⟩
  | k, s :: ss =>
    let o := ofStatements labels (k + 1) ss
    { o with statements := (labels k, s.raw) :: o.statements }

section Lines

variable {labels : Nat → List String} {k : Nat} {ss : List Statement}

theorem Reads.cons {o : Outline} {cs : List Char} (h : o.Reads cs) {names : List String}
    (hnames : ∀ name ∈ names, isName name.toList = true) {s : Statement} (hs : s.Writable) :
    Reads { o with statements := (names, s.raw) :: o.statements }
      (labelled names s.text.toList ++ '\n' :: cs) := by
  obtain ⟨ls, hls, rfl⟩ := h
  refine ⟨⟨names, some s.raw⟩ :: ls, ?_, rfl⟩
  rw [Text.lines_newline_of_onOneLine (onOneLine_labelled hnames fun _ => hs.isTextChar)]
  exact .cons (Line.read_statement hnames hs) hls

theorem reads_labelled {names : List String}
    (hnames : ∀ name ∈ names, isName name.toList = true) :
    Reads ⟨[], names⟩ (labelled names []) := by
  cases names with
  -- a line that is empty and the last is none
  | nil => exact ⟨[], .nil, rfl⟩
  | cons name names =>
    have hne : labelled (name :: names) [] ≠ [] := by simp [labelled_cons]
    refine ⟨[⟨name :: names, none⟩], ?_, rfl⟩
    have honeLine := onOneLine_labelled hnames fun _ hc => absurd hc List.not_mem_nil
    rw [Text.lines_of_onOneLine honeLine hne]
    exact .cons (Line.read_labels hnames) .nil

/-- **Statements in print** are read as they were. -/
theorem ofStatements_reads (hlabels : ∀ k, ∀ name ∈ labels k, isName name.toList = true)
    (hss : ∀ s ∈ ss, s.Writable) :
    (ofStatements labels k ss).Reads (printedFrom labels k ss) := by
  induction ss generalizing k with
  | nil => exact reads_labelled (hlabels k)
  | cons s ss ih =>
    have hrest := ih (k := k + 1) fun t ht => hss t (List.mem_cons_of_mem _ ht)
    exact hrest.cons (hlabels k) (hss s List.mem_cons_self)

end Lines

section Statements

variable (labels : Nat → List String) (k : Nat) (ss : List Statement)

theorem getElem?_ofStatements (j : Nat) :
    (ofStatements labels k ss).statements[j]? = ss[j]?.map fun s => (labels (k + j), s.raw) := by
  induction ss generalizing k j with
  | nil => rfl
  | cons s ss ih =>
    cases j with
    | zero => rfl
    | succ j =>
      have hk : k + (j + 1) = k + 1 + j := by omega
      rw [hk]
      exact ih (k + 1) j

theorem length_ofStatements : (ofStatements labels k ss).statements.length = ss.length := by
  induction ss generalizing k with
  | nil => rfl
  | cons s ss ih => exact congrArg (· + 1) (ih (k + 1))

theorem trailing_ofStatements : (ofStatements labels k ss).trailing = labels (k + ss.length) := by
  induction ss generalizing k with
  | nil => rfl
  | cons s ss ih =>
    rw [List.length_cons, Nat.add_comm ss.length, ← Nat.add_assoc]
    exact ih (k + 1)

theorem built_ofStatements (hss : ∀ s ∈ ss, Statement.ofBody s.raw = .ok s.reread) :
    List.Forall₂ (fun r s => Statement.ofBody r.2 = .ok s) (ofStatements labels k ss).statements
      (ss.map Statement.reread) := by
  induction ss generalizing k with
  | nil => exact .nil
  | cons s ss ih =>
    have hrest := ih (k + 1) fun t ht => hss t (List.mem_cons_of_mem _ ht)
    exact .cons (hss s List.mem_cons_self) hrest

end Statements

variable {labels : Nat → List String} {ss : List Statement} {o : Outline} {l : Layout}
  {ps : List (Statement × List Byte)}

theorem mem_definitions_ofStatements {name : String} {index : Nat} :
    (name, index) ∈ (ofStatements labels 0 ss).definitions ↔
      name ∈ labels index ∧ index ≤ ss.length := by
  rw [mem_definitions_iff, getElem?_ofStatements, trailing_ofStatements, length_ofStatements,
    Nat.zero_add, Nat.zero_add]
  constructor
  · rintro (⟨s, hs, hname⟩ | ⟨hname, rfl⟩)
    · obtain ⟨t, ht, rfl⟩ := Option.map_eq_some_iff.mp hs
      exact ⟨hname, (List.getElem?_eq_some_iff.mp ht).1.le⟩
    · exact ⟨hname, le_rfl⟩
  · -- of all indices the last has no statement, and its labels come after them
    rintro ⟨hname, hindex⟩
    rcases hindex.lt_or_eq with hlt | rfl
    · refine .inl ⟨_, Option.map_eq_some_iff.mpr ⟨ss[index], ?_, rfl⟩, hname⟩
      exact List.getElem?_eq_getElem hlt
    · exact .inr ⟨hname, rfl⟩

/-- **Every label names what it named**, if the labels that are chosen are those of the index. -/
theorem Assembles.lookup_ofStatements (h : o.Assembles l ps)
    (hlabels : ∀ k name, name ∈ labels k ↔ l.symbols.lookup name = some k) (name : String) :
    (ofStatements labels 0 (ps.map Prod.fst)).symbols.lookup name = l.symbols.lookup name := by
  refine Symbols.lookup_ofPairs (f := fun name => l.symbols.lookup name)
    (fun name index => ?_) name
  rw [mem_definitions_ofStatements, hlabels, List.length_map, and_iff_left_iff_imp]
  exact h.lookup_le

/-- **Statements in print** assemble to what they were. -/
theorem Assembles.ofStatements (h : o.Assembles l ps) (hwritable : ∀ e ∈ ps, e.1.Writable)
    (hlabels : ∀ k name, name ∈ labels k ↔ l.symbols.lookup name = some k) :
    (ofStatements labels 0 (ps.map Prod.fst)).Assembles
      ⟨(ofStatements labels 0 (ps.map Prod.fst)).symbols, l.lengths⟩
      (ps.map fun e => (e.1.reread, e.2)) where
  built := by
    have hbuilt : ∀ s ∈ ps.map Prod.fst, Statement.ofBody s.raw = .ok s.reread := by
      intro s hs
      obtain ⟨e, he, rfl⟩ := List.mem_map.mp hs
      obtain ⟨r, -, hr⟩ := exists_of_forall₂ h.built he
      exact Statement.ofBody_raw hr (hwritable e he)
    have hall := built_ofStatements labels 0 _ hbuilt
    rw [List.map_map, List.forall₂_map_right_iff] at hall
    rw [List.forall₂_map_right_iff]
    exact hall
  symbols := rfl
  lengths := by
    rw [h.lengths, List.map_map]
    rfl
  bytes k e hk := by
    rw [List.getElem?_map, Option.map_eq_some_iff] at hk
    obtain ⟨e, he, rfl⟩ := hk
    have hwf := h.wellFormed (List.mem_of_getElem? he)
    rw [hwf.bytes_reread]
    -- the layouts have the same lengths, so that equal indices have equal addresses
    refine hwf.bytes_congr (fun name a ha => ?_) (h.bytes k e he)
    obtain ⟨index, hname, rfl⟩ := Layout.resolve_ok_iff.mp ha
    refine ⟨_, Layout.resolve_ok_iff.mpr ⟨index, ?_, rfl⟩, rfl⟩
    rw [h.lookup_ofStatements hlabels]
    exact hname

end Outline

/-! ## Programs -/

namespace Program

/-- A program in print. -/
def reprint (labels : Nat → List String) (p : Program) : String :=
  String.ofList (printedFrom labels 0 (p.entries.map Entry.statement))

/-- **A program in print** assembles to the same program. On each line stand the labels of a
statement, in any order, and the statement, and on the last line the labels of the end. Then the
code, the addresses, the lengths and the indices of the labels are what they were. Only the least
constant is left out, whose written form cannot be read. -/
theorem assemble_reprint {text : String} {p : Program} {labels : Nat → List String}
    (hp : assemble text = .ok p) (hlabels : ∀ k, (labels k).Perm (p.layout.symbols.labelsAt k))
    (himm : ∀ e ∈ p.entries, ∀ i, e.statement = .instruction i →
      .imm (-2 ^ 63) ∉ i.instr.operands) :
    ∃ q, assemble (p.reprint labels) = .ok q ∧ q.code = p.code ∧
      q.layout.starts = p.layout.starts ∧ q.layout.lengths = p.layout.lengths ∧
      ∀ name, q.layout.symbols.lookup name = p.layout.symbols.lookup name := by
  obtain ⟨o, hreads, ho⟩ := exists_assemble_iff.mp ⟨p, hp, rfl, rfl⟩
  have hstatements : p.pieces.map Prod.fst = p.entries.map Entry.statement := by
    rw [pieces, List.map_map]
    rfl
  have hlookup : ∀ k name, name ∈ labels k ↔ p.layout.symbols.lookup name = some k := by
    intro k name
    rw [(hlabels k).mem_iff, Symbols.mem_labelsAt ho.nodup_names]
  have hnames : ∀ k, ∀ name ∈ labels k, isName name.toList = true := by
    intro k name hname
    have hmem := ho.mem_definitions ((hlookup k name).mp hname)
    exact hreads.readable.isName_of_mem_definitions hmem
  have hwritable : ∀ e ∈ p.pieces, e.1.Writable := by
    intro e he
    obtain ⟨r, hr, hbuilt⟩ := exists_of_forall₂ ho.built he
    obtain ⟨k, hk⟩ := List.mem_iff_getElem?.mp he
    refine Statement.writable_of_readable hbuilt (hreads.readable.statements r hr).2
      ⟨_, (ho.wellFormed he).bytes_length (ho.bytes k e hk)⟩ fun i hi => ?_
    obtain ⟨entry, hentry, rfl⟩ := List.mem_map.mp he
    exact himm entry hentry i hi
  have hprinted : (Outline.ofStatements labels 0 (p.pieces.map Prod.fst)).Reads
      (p.reprint labels).toList := by
    rw [reprint, String.toList_ofList, ← hstatements]
    refine Outline.ofStatements_reads hnames fun s hs => ?_
    obtain ⟨e, he, rfl⟩ := List.mem_map.mp hs
    exact hwritable e he
  obtain ⟨q, hq, hlayout, hpieces⟩ :=
    exists_assemble_iff.mpr ⟨_, hprinted, ho.ofStatements hwritable hlookup⟩
  have hlengths : q.layout.lengths = p.layout.lengths := by rw [hlayout]
  refine ⟨q, hq, ?_, ?_, hlengths, fun name => ?_⟩
  · rw [code_eq_flatMap, hpieces, List.flatMap_map, code_eq_flatMap]
  · rw [Layout.starts, hlengths, Layout.starts]
  · rw [hlayout]
    exact ho.lookup_ofStatements hlookup name

/-- A program of a load, data and a jump, with two labels in front and one behind. -/
def loadLoop : Program where
  text := "go: again: MOVL (%esi,,4), %eax ; load\n\n.byte 7, 0x10\n jmp go\ndone:"
  entries := [
    ⟨.instruction ⟨"movl", ⟨.mov, .long, [.mem ⟨some ⟨.long, 6⟩, 0, none, .four⟩,
      .reg ⟨.long, 0⟩]⟩⟩, 1, [0x8B, 0x06]⟩,
    ⟨.directive ⟨".byte", .byte, [7, 16]⟩, 3, [0x07, 0x10]⟩,
    ⟨.instruction ⟨"jmp", ⟨.jmp, .long, [.label "go"]⟩⟩, 4, [0xE9, 0xF7, 0xFF, 0xFF, 0xFF]⟩]
  layout := ⟨[("go", 0), ("again", 0), ("done", 3)], [2, 2, 5]⟩
  warnings := []

theorem assemble_loadLoop : assemble loadLoop.text = .ok loadLoop := by
  decide +kernel

/-- Without its comment, its blank line and the scale of no index, the program is the same. -/
theorem assemble_reprint_loadLoop :
    ∃ q, assemble "go:again:movl (%esi), %eax\n.byte 0x7, 0x10\njmp go\ndone:" = .ok q ∧
      q.code = [0x8B, 0x06, 0x07, 0x10, 0xE9, 0xF7, 0xFF, 0xFF, 0xFF] ∧
      q.layout.starts = [0, 2, 4] ∧ q.layout.lengths = [2, 2, 5] ∧
      q.layout.symbols.lookup "again" = some 0 ∧ q.layout.symbols.lookup "done" = some 3 := by
  have hsource : loadLoop.reprint loadLoop.layout.symbols.labelsAt =
      "go:again:movl (%esi), %eax\n.byte 0x7, 0x10\njmp go\ndone:" := by
    decide +kernel
  obtain ⟨q, hq, hcode, hstarts, hlengths, hlookup⟩ :=
    assemble_reprint assemble_loadLoop (fun _ => .refl _) (by
      intro e he i hi
      simp only [loadLoop, List.mem_cons, List.not_mem_nil, or_false] at he
      rcases he with rfl | rfl | rfl <;> cases hi <;> decide)
  rw [hsource] at hq
  exact ⟨q, hq, hcode, hstarts, hlengths, hlookup "again", hlookup "done"⟩

end Program

end Ia32
