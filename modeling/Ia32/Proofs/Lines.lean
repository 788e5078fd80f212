import Ia32.Proofs.Labels

/-!
# Texts line by line

What a text says is said here line by line, each line with its number.

* `Source.numbered`, `Source.said`: the lines of a text with their numbers, and what they say;
* `Source.bodies`, `Source.marks`: the statements and the labels of a text where they are written;
* **`Source.index_le_iff`**: a label names the statement behind it;
* **`Source.read_eq`**: what is read of a text is what its lines say; `Source.bodies_eq`,
  `Source.definitions_eq`: its statements and labels by their lines;
* `Source.forall₂_bodies`, `Source.symbols_eq`: what is built and defined, by the lines.
-/

set_option autoImplicit false

namespace Ia32

/-! ## Statements and labels of lines -/

theorem pairwise_filterMap {α β : Type} {f : α → Option β} {m : α → Nat} {n : β → Nat}
    (hf : ∀ a b, f a = some b → n b = m a) {xs : List α} (h : xs.Pairwise (m · < m ·)) :
    (xs.filterMap f).Pairwise (n · < n ·) := by
  refine List.Pairwise.filterMap f (fun a a' hlt b hb b' hb' => ?_) h
  rw [hf a b hb, hf a' b' hb']
  exact hlt

/-- The statements of numbered lines, each with the number of its line. -/
def bodiesOf (ls : List (Nat × Line)) : List (RawBody × Nat) :=
  ls.filterMap fun l => l.2.body.map (·, l.1)

theorem mem_bodiesOf_iff {ls : List (Nat × Line)} {b : RawBody × Nat} :
    b ∈ bodiesOf ls ↔ ∃ l ∈ ls, l.2.body = some b.1 ∧ l.1 = b.2 := by
  obtain ⟨body, n⟩ := b
  simp [bodiesOf, List.mem_filterMap]

theorem bodiesOf_append (ls ls' : List (Nat × Line)) :
    bodiesOf (ls ++ ls') = bodiesOf ls ++ bodiesOf ls' := List.filterMap_append

theorem length_bodiesOf_cons (l : Nat × Line) (ls : List (Nat × Line)) :
    (bodiesOf (l :: ls)).length = l.2.body.toList.length + (bodiesOf ls).length := by
  unfold bodiesOf
  rw [List.filterMap_cons]
  cases l.2.body with
  | none => simp
  | some body => simp [Nat.add_comm]

/-- A label where it is written. -/
structure Mark where
  name : String
  /-- The number of statements before it, which is the index of the next one. -/
  index : Nat
  /-- The number of its line. -/
  line : Nat
  /-- The number of the line of the next statement, if there is one. -/
  next : Option Nat
  deriving DecidableEq

/-- The labels of numbered lines, given the number of statements before these. -/
def marksFrom (index : Nat) : List (Nat × Line) → List Mark
  | [] => []
  | l :: ls =>
    l.2.labels.map (⟨·, index, l.1, (bodiesOf (l :: ls)).head?.map Prod.snd⟩) ++
      marksFrom (index + l.2.body.toList.length) ls

namespace Mark

/-- The line that a label is reported on: that of the next statement, and without one its own. -/
def statementLine (m : Mark) : Nat := m.next.getD m.line

/-- A label as a definition on the line of its statement. -/
def definition (m : Mark) : Definition := ⟨m.name, m.index, m.statementLine⟩

end Mark

/-- The last of some labels that has a name. -/
def nearest (name : String) (ms : List Mark) : Option Mark := ms.findRev? fun m => m.name == name

theorem find?_reverse_map {α : Type} (f : Mark → α) (q : α → Bool) {name : String}
    (hq : ∀ m, q (f m) = (m.name == name)) (ms : List Mark) :
    (ms.map f).reverse.find? q = (nearest name ms).map f := by
  have hfun : q ∘ f = fun m => m.name == name := funext hq
  rw [nearest, List.findRev?_eq_find?_reverse, ← List.map_reverse, List.find?_map, hfun]

/-- **A label of lines** is one of a line, after the statements of the lines before. -/
theorem mem_marksFrom_iff {index : Nat} {ls : List (Nat × Line)} {m : Mark} :
    m ∈ marksFrom index ls ↔ ∃ before l after, ls = before ++ l :: after ∧ m.name ∈ l.2.labels ∧
      m.index = index + (bodiesOf before).length ∧ m.line = l.1 ∧
        m.next = (bodiesOf (l :: after)).head?.map Prod.snd := by
  induction ls generalizing index with
  | nil => simp [marksFrom]
  | cons l ls ih =>
    rw [marksFrom, List.mem_append, List.mem_map, ih]
    constructor
    · rintro (⟨name, hname, rfl⟩ | ⟨before, l', after, rfl, hname, hindex, hline, hnext⟩)
      · exact ⟨[], l, ls, rfl, hname, rfl, rfl, rfl⟩
      · refine ⟨l :: before, l', after, rfl, hname, ?_, hline, hnext⟩
        rw [hindex, length_bodiesOf_cons, Nat.add_assoc]
    · rintro ⟨before, l', after, hsplit, hname, hindex, hline, hnext⟩
      cases before with
      | nil =>
        obtain ⟨rfl, rfl⟩ := List.cons_eq_cons.mp hsplit
        refine .inl ⟨m.name, hname, ?_⟩
        rw [← hline, ← hnext, ← show m.index = index from hindex]
      | cons l'' before =>
        obtain ⟨rfl, rfl⟩ := List.cons_eq_cons.mp hsplit
        refine .inr ⟨before, l', after, rfl, hname, ?_, hline, hnext⟩
        rw [hindex, length_bodiesOf_cons, Nat.add_assoc]

/-! ## Statements and labels of texts -/

namespace Source

/-- The lines of a text with their numbers. -/
def numbered (text : String) : List (List Char × Nat) := (Text.lines text.toList).zipIdx 1

/-- What the lines of a text say, with their numbers. Lines that cannot be read say nothing. -/
def said (text : String) : List (Nat × Line) :=
  (numbered text).filterMap fun l => (Line.read l.1).toOption.map (l.2, ·)

/-- The statements of a text, each with the number of its line. -/
def bodies (text : String) : List (RawBody × Nat) := bodiesOf (said text)

/-- The labels of a text, each where it is written. -/
def marks (text : String) : List Mark := marksFrom 0 (said text)

variable {text : String}

theorem mem_numbered_iff {l : List Char × Nat} :
    l ∈ numbered text ↔ 1 ≤ l.2 ∧ (Text.lines text.toList)[l.2 - 1]? = some l.1 := by
  unfold numbered
  rw [List.mem_zipIdx_iff_le_and_getElem?_sub]

theorem mem_said_iff {n : Nat} {line : Line} :
    (n, line) ∈ said text ↔ ∃ cs, (cs, n) ∈ numbered text ∧ Line.read cs = .ok line := by
  unfold said
  rw [List.mem_filterMap]
  constructor
  · rintro ⟨⟨cs, n'⟩, hmem, h⟩
    obtain ⟨line', hline, heq⟩ := Option.map_eq_some_iff.mp h
    cases heq
    exact ⟨cs, hmem, toOption_eq_some_iff.mp hline⟩
  · rintro ⟨cs, hmem, h⟩
    exact ⟨(cs, n), hmem, by rw [h]; rfl⟩

theorem numbered_pairwise (text : String) : (numbered text).Pairwise (·.2 < ·.2) := by
  have hrange := List.pairwise_lt_range' (s := 1) (n := (Text.lines text.toList).length)
  rwa [← List.zipIdx_map_snd, List.pairwise_map] at hrange

theorem said_pairwise (text : String) : (said text).Pairwise (·.1 < ·.1) := by
  refine pairwise_filterMap (fun l b hb => ?_) (numbered_pairwise text)
  obtain ⟨_, -, rfl⟩ := Option.map_eq_some_iff.mp hb
  rfl

theorem bodies_pairwise (text : String) : (bodies text).Pairwise (·.2 < ·.2) := by
  refine pairwise_filterMap (fun l b hb => ?_) (said_pairwise text)
  obtain ⟨_, -, rfl⟩ := Option.map_eq_some_iff.mp hb
  rfl

theorem exists_line_of_mem_bodies {b : RawBody × Nat} (h : b ∈ bodies text) :
    ∃ cs labels, (cs, b.2) ∈ numbered text ∧ Line.read cs = .ok ⟨labels, some b.1⟩ := by
  obtain ⟨⟨n, labels, body⟩, hl, hbody, rfl⟩ := mem_bodiesOf_iff.mp h
  obtain ⟨cs, hcs, hread⟩ := mem_said_iff.mp hl
  exact ⟨cs, labels, hcs, by rw [hread, ← hbody]⟩

/-- **A label of a text** stands before the first statement that is on its line or on a later one,
and names that. -/
theorem index_le_iff {m : Mark} {j : Nat} {b : RawBody × Nat} (hm : m ∈ marks text)
    (hb : (bodies text)[j]? = some b) : m.index ≤ j ↔ m.line ≤ b.2 := by
  obtain ⟨before, l, after, hsplit, -, hindex, hline, -⟩ := mem_marksFrom_iff.mp hm
  have hsorted := said_pairwise text
  rw [hsplit, List.pairwise_append, List.pairwise_cons] at hsorted
  obtain ⟨-, ⟨hafter, -⟩, hbefore⟩ := hsorted
  rw [bodies, hsplit, bodiesOf_append] at hb
  rw [hindex, hline, Nat.zero_add]
  by_cases hj : j < (bodiesOf before).length
  · rw [List.getElem?_append_left hj] at hb
    obtain ⟨l', hl', -, hn⟩ := mem_bodiesOf_iff.mp (List.mem_of_getElem? hb)
    have hlt := hbefore l' hl' l List.mem_cons_self
    omega
  · rw [List.getElem?_append_right (by omega)] at hb
    obtain ⟨l', hl', -, hn⟩ := mem_bodiesOf_iff.mp (List.mem_of_getElem? hb)
    rcases List.mem_cons.mp hl' with rfl | hl'
    · omega
    · have hlt := hafter l' hl'
      omega

theorem index_le_length {m : Mark} (hm : m ∈ marks text) : m.index ≤ (bodies text).length := by
  obtain ⟨before, l, after, hsplit, -, hindex, -, -⟩ := mem_marksFrom_iff.mp hm
  rw [bodies, hsplit, bodiesOf_append, List.length_append, hindex]
  omega

/-- The statement that a label names is the next one. -/
theorem next_eq {m : Mark} (hm : m ∈ marks text) :
    m.next = (bodies text)[m.index]?.map Prod.snd := by
  obtain ⟨before, l, after, hsplit, -, hindex, -, hnext⟩ := mem_marksFrom_iff.mp hm
  rw [bodies, hsplit, bodiesOf_append, hnext, hindex, Nat.zero_add,
    List.getElem?_append_right (Nat.le_refl _), Nat.sub_self, List.head?_eq_getElem?]

theorem exists_line_of_mem_marks {m : Mark} (hm : m ∈ marks text) :
    ∃ cs line, (cs, m.line) ∈ numbered text ∧ Line.read cs = .ok line ∧ m.name ∈ line.labels := by
  obtain ⟨before, ⟨n, line⟩, after, hsplit, hname, -, hline, -⟩ := mem_marksFrom_iff.mp hm
  have hsaid : (n, line) ∈ said text := by
    rw [hsplit]
    simp
  obtain ⟨cs, hcs, hread⟩ := mem_said_iff.mp hsaid
  exact ⟨cs, line, hline ▸ hcs, hread, hname⟩

/-! ## What is read -/

theorem readLines_eq_mapM (n : Nat) (ls : List (List Char)) :
    readLines n ls = (ls.zipIdx n).mapM fun l => (l.2, ·) <$> onLine l.2 (Line.read l.1) := by
  induction ls generalizing n with
  | nil => rfl
  | cons l ls ih =>
    rw [List.zipIdx_cons, List.mapM_cons, readLines, ih]
    cases Line.read l <;> rfl

theorem toOption_onLine {n : Nat} {cs : List Char} :
    ((n, ·) <$> onLine n (Line.read cs)).toOption = (Line.read cs).toOption.map (n, ·) := by
  cases Line.read cs <;> rfl

/-- **What is read of a text** is what its lines say. -/
theorem read_eq {s : Source} (h : Source.read text = .ok s) : s = ofLines [] (said text) := by
  obtain ⟨ls, hls, rfl⟩ := map_ok_iff.mp h
  rw [readLines_eq_mapM] at hls
  rw [eq_filterMap_of_mapM_ok hls]
  simp only [toOption_onLine]
  rfl

theorem bodies_ofLines (waiting : List (String × Nat)) (ls : List (Nat × Line)) :
    (ofLines waiting ls).statements.map (fun r => (r.body, r.line)) = bodiesOf ls := by
  induction ls generalizing waiting with
  | nil => rfl
  | cons l ls ih =>
    obtain ⟨n, labels, _ | body⟩ := l
    · exact ih _
    · exact congrArg _ (ih [])

theorem bodies_eq {s : Source} (h : Source.read text = .ok s) :
    s.statements.map (fun r => (r.body, r.line)) = bodies text := by
  rw [read_eq h, bodies_ofLines, bodies]

theorem definitions_ofLines (index : Nat) (waiting : List (String × Nat)) (ls : List (Nat × Line)) :
    definitionsFrom index (ofLines waiting ls).statements ++
        (ofLines waiting ls).trailing.map (fun d =>
          ⟨d.1, index + (ofLines waiting ls).statements.length, d.2⟩) =
      waiting.map (fun d =>
          (Mark.mk d.1 index d.2 ((bodiesOf ls).head?.map Prod.snd)).definition) ++
        (marksFrom index ls).map Mark.definition := by
  -- the induction is on the lines: a line without a statement adds its labels to those that wait
  induction ls generalizing index waiting with
  | nil => simp [ofLines, definitionsFrom, marksFrom, bodiesOf, Mark.definition, Mark.statementLine]
  | cons l ls ih =>
    obtain ⟨n, labels, _ | body⟩ := l
    · have hlabels := ih index (waiting ++ labels.map (·, n))
      rw [List.map_append, List.map_map, List.append_assoc] at hlabels
      rw [marksFrom, List.map_append, List.map_map]
      exact hlabels
    · have hrest := ih (index + 1) []
      have hcount : index + ((ofLines [] ls).statements.length + 1) =
          index + 1 + (ofLines [] ls).statements.length := by omega
      rw [List.map_nil, List.nil_append] at hrest
      rw [marksFrom, List.map_append, List.map_map, ofLines]
      dsimp only [definitionsFrom]
      rw [List.append_assoc, List.length_cons, hcount, hrest, List.map_append, List.map_append,
        List.map_map, List.map_map, List.map_map, List.append_assoc]
      rfl

/-- **The labels of a text** are defined in order, each on the line of the next statement. -/
theorem definitions_eq {s : Source} (h : Source.read text = .ok s) :
    s.definitions = (marks text).map Mark.definition := by
  have hlines := definitions_ofLines 0 [] (said text)
  rw [List.map_nil, List.nil_append, ← read_eq h, Nat.zero_add] at hlines
  exact hlines

/-! ## What is built and defined -/

/-- **The statements that are built** are those of the lines, in their order. -/
theorem forall₂_bodies {s : Source} {statements : List (Statement × Nat)}
    (h : Source.read text = .ok s) (hbuild : Program.build s.statements = .ok statements) :
    List.Forall₂ (fun b t => Statement.ofBody b.1 = .ok t.1 ∧ t.2 = b.2) (bodies text)
      statements := by
  rw [← bodies_eq h, List.forall₂_map_left_iff]
  exact Program.build_ok_iff.mp hbuild

/-- **The labels that are defined** are those of the lines, in their order. -/
theorem symbols_eq {s : Source} (h : Source.read text = .ok s) :
    Symbols.ofDefinitions s.definitions =
      .ofPairs ((marks text).map fun m => (m.name, m.index)) := by
  rw [definitions_eq h, Symbols.ofDefinitions, Symbols.ofPairs, List.foldl_map, List.foldl_map]
  rfl

end Source

end Ia32
