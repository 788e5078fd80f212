import Ia32.Proofs.Labels
import Ia32.Proofs.Text

/-!
# Texts one after the other

* `Source.append`, `Source.ofLines_append`: what is read of lines that follow others;
* `Outline.append`, `Outline.Reads.append`: the outline of a text that follows another one; labels
  that still wait are handed on to its first statement;
* `Outline.definitions_append`, `Symbols.ofPairs_append`: the labels of the second text move on by
  the number of statements of the first;
* `Layout.offset_append`, `Layout.starts_append`: so do its addresses by the length of the code;
* `Outline.Assembles.append`: code does not change, since the labels move with the statements;
* **`assemble_append`**: assembling one text after the other gives one program after the other.
-/

set_option autoImplicit false

namespace Ia32

/-! ## Statements of lines -/

namespace Source

/-- What is read after labels that wait for their statement. -/
def after (waiting : List (String × Nat)) (s : Source) : Source :=
  match s.statements with
  | [] => ⟨[], waiting ++ s.trailing⟩
  | r :: rs => ⟨{ r with labels := waiting.map Prod.fst ++ r.labels } :: rs, s.trailing⟩

/-- What is read after something else. The labels that still wait are handed on. -/
def append (s s' : Source) : Source :=
  ⟨s.statements ++ (s'.after s.trailing).statements, (s'.after s.trailing).trailing⟩

theorem after_after (waiting labels : List (String × Nat)) (s : Source) :
    (s.after labels).after waiting = s.after (waiting ++ labels) := by
  obtain ⟨_ | ⟨r, rs⟩, trailing⟩ := s <;> simp [after]

theorem ofLines_eq_after (waiting : List (String × Nat)) (ls : List (Nat × Line)) :
    ofLines waiting ls = (ofLines [] ls).after waiting := by
  induction ls generalizing waiting with
  | nil => simp [ofLines, after]
  | cons l ls ih =>
    obtain ⟨n, labels, _ | body⟩ := l
    · rw [ofLines, ofLines, ih, ih ([] ++ labels.map (·, n)), after_after, List.nil_append]
    · simp [ofLines, after]

theorem ofLines_append (waiting : List (String × Nat)) (ls ls' : List (Nat × Line)) :
    ofLines waiting (ls ++ ls') = (ofLines waiting ls).append (ofLines [] ls') := by
  induction ls generalizing waiting with
  | nil => exact ofLines_eq_after waiting ls'
  | cons l ls ih =>
    obtain ⟨n, labels, _ | body⟩ := l
    · exact ih _
    · rw [List.cons_append, ofLines, ofLines]
      dsimp only
      rw [ih]
      rfl

end Source

/-! ## Outlines -/

namespace Outline

/-- An outline after labels that wait for their statement. -/
def after (waiting : List String) (o : Outline) : Outline :=
  match o.statements with
  | [] => ⟨[], waiting ++ o.trailing⟩
  | s :: ss => ⟨(waiting ++ s.1, s.2) :: ss, o.trailing⟩

/-- An outline after another one. -/
def append (o o' : Outline) : Outline :=
  ⟨o.statements ++ (o'.after o.trailing).statements, (o'.after o.trailing).trailing⟩

theorem ofLines_eq_outline (waiting : List String) (ls : List Line) :
    ofLines waiting ls = (Source.ofLines (waiting.map (·, 0)) (ls.map (0, ·))).outline := by
  rw [Source.outline_ofLines, List.map_map, List.map_map]
  exact congr (congrArg ofLines (List.map_id waiting).symm) (List.map_id ls).symm

theorem outline_append (s s' : Source) : (s.append s').outline = s.outline.append s'.outline := by
  obtain ⟨_ | ⟨r, rs⟩, trailing⟩ := s' <;>
    simp [Source.outline, Source.append, Source.after, append, after]

theorem ofLines_append (waiting : List String) (ls ls' : List Line) :
    ofLines waiting (ls ++ ls') = (ofLines waiting ls).append (ofLines [] ls') := by
  rw [ofLines_eq_outline, List.map_append, Source.ofLines_append, outline_append,
    ← ofLines_eq_outline, ofLines_eq_outline [] ls', List.map_nil]

/-- **A text after an ended line** is read as if it stood alone. -/
theorem Reads.append {o o' : Outline} {cs ds : List Char} (h : o.Reads cs) (h' : o'.Reads ds)
    (hend : cs = [] ∨ ∃ bs, cs = bs ++ ['\n']) : (o.append o').Reads (cs ++ ds) := by
  obtain ⟨ls, hls, rfl⟩ := h
  obtain ⟨ls', hls', rfl⟩ := h'
  refine ⟨ls ++ ls', ?_, ofLines_append [] ls ls'⟩
  rw [Text.lines_append_of_ended hend]
  exact List.rel_append hls hls'

end Outline

/-! ## Labels -/

/-- Labels whose statements have so many others in front of them. -/
def Symbols.shift (n : Nat) (symbols : List (String × Nat)) : List (String × Nat) :=
  symbols.map fun s => (s.1, s.2 + n)

theorem labelsFrom_append (i : Nat) (ss ts : List (List String × RawBody)) :
    labelsFrom i (ss ++ ts) = labelsFrom i ss ++ labelsFrom (i + ss.length) ts := by
  induction ss generalizing i with
  | nil => rfl
  | cons s ss ih =>
    rw [List.cons_append, labelsFrom, labelsFrom, ih, List.append_assoc, List.length_cons,
      Nat.add_right_comm, Nat.add_assoc i]

theorem labelsFrom_add (i n : Nat) (ss : List (List String × RawBody)) :
    labelsFrom (i + n) ss = Symbols.shift n (labelsFrom i ss) := by
  induction ss generalizing i with
  | nil => rfl
  | cons s ss ih =>
    rw [labelsFrom, labelsFrom, Nat.add_right_comm, ih, Symbols.shift, Symbols.shift,
      List.map_append, List.map_map]
    rfl

namespace Outline

theorem definitions_append (o o' : Outline) :
    (o.append o').definitions =
      o.definitions ++ Symbols.shift o.statements.length o'.definitions := by
  unfold definitions append after
  obtain ⟨_ | ⟨s, ss⟩, trailing⟩ := o'
  · simp [labelsFrom, Symbols.shift]
  · -- the labels after the statements of the one are those in front of the other's first
    have hfirst : labelsFrom o.statements.length ((o.trailing ++ s.1, s.2) :: ss) =
        o.trailing.map (·, o.statements.length) ++
          Symbols.shift o.statements.length (labelsFrom 0 (s :: ss)) := by
      rw [← labelsFrom_add, Nat.zero_add, labelsFrom, labelsFrom, List.map_append,
        List.append_assoc]
    have hlength : (o.statements ++ (o.trailing ++ s.1, s.2) :: ss).length =
        (s :: ss).length + o.statements.length := by
      rw [List.length_append, Nat.add_comm, List.length_cons, List.length_cons]
    dsimp only
    rw [labelsFrom_append, Nat.zero_add, hfirst, hlength]
    simp [Symbols.shift]

end Outline

namespace Symbols

theorem define_append_of_not_mem {name : String} {i : Nat} {ss ts : Symbols}
    (h : name ∉ names ss) : define name i (ss ++ ts) = ss ++ define name i ts := by
  induction ss with
  | nil => rfl
  | cons s ss ih =>
    obtain ⟨hne, hrest⟩ := not_or.mp (mt List.mem_cons.mpr h)
    rw [List.cons_append, define, if_neg (Ne.symm hne), ih hrest, List.cons_append]

theorem define_shift (name : String) (i n : Nat) (ss : Symbols) :
    define name (i + n) (shift n ss) = shift n (define name i ss) := by
  induction ss with
  | nil => rfl
  | cons s ss ih =>
    rw [shift, List.map_cons, define, define]
    by_cases h : s.1 = name
    · rw [if_pos h, if_pos h]
      rfl
    · rw [if_neg h, if_neg h]
      exact congrArg _ ih

theorem ofPairs_shift (n : Nat) (ds : List (String × Nat)) :
    ofPairs (shift n ds) = shift n (ofPairs ds) := by
  induction ds using List.reverseRecOn with
  | nil => rfl
  | append_singleton ds d ih =>
    rw [ofPairs_concat, ← define_shift, ← ih, shift, List.map_append]
    exact ofPairs_concat _ _

/-- **Labels that others do not define again** keep their places before those. -/
theorem ofPairs_append {ds es : List (String × Nat)} (h : ∀ e ∈ es, e.1 ∉ names (ofPairs ds)) :
    ofPairs (ds ++ es) = ofPairs ds ++ ofPairs es := by
  induction es using List.reverseRecOn with
  | nil => rw [List.append_nil]; exact (List.append_nil _).symm
  | append_singleton es e ih =>
    have hes := ih fun e he => h e (List.mem_append_left _ he)
    have he : e.1 ∉ names (ofPairs ds) := h e (List.mem_append_right _ List.mem_cons_self)
    rw [← List.append_assoc, ofPairs_concat, hes, define_append_of_not_mem he, ofPairs_concat]

theorem lookup_shift (n : Nat) (name : String) (ss : List (String × Nat)) :
    (shift n ss).lookup name = (ss.lookup name).map (· + n) := by
  induction ss with
  | nil => rfl
  | cons s ss ih =>
    obtain ⟨x, i⟩ := s
    rw [shift, List.map_cons, List.lookup_cons, List.lookup_cons]
    cases name == x with
    | true => rfl
    | false => exact ih

theorem lookup_append_left {ss ts : Symbols} {name : String} {index : Nat}
    (h : ss.lookup name = some index) : (ss ++ ts).lookup name = some index := by
  rw [List.lookup_append, h, Option.some_or]

theorem lookup_append_right {n : Nat} {ss ts : Symbols} {name : String} {index : Nat}
    (hss : name ∉ names ss) (h : ts.lookup name = some index) :
    (ss ++ shift n ts).lookup name = some (index + n) := by
  rw [List.lookup_append, not_mem_names_iff.mp hss, Option.none_or, lookup_shift, h]
  rfl

end Symbols

/-! ## Addresses -/

namespace Layout

variable {l : Layout} (l₁ l₂ : Layout) {k : Nat}

theorem offset_append_of_le (h : l.lengths = l₁.lengths ++ l₂.lengths)
    (hk : k ≤ l₁.lengths.length) : l.offset k = l₁.offset k := by
  rw [offset, h, List.take_append_of_le_length hk, offset]

/-- **The statements of the second layout** lie behind those of the first. -/
theorem offset_append (h : l.lengths = l₁.lengths ++ l₂.lengths) (k : Nat) :
    l.offset (k + l₁.lengths.length) = l₂.offset k + l₁.lengths.sum := by
  rw [offset, h, Nat.add_comm, List.take_length_add_append, List.sum_append, Nat.add_comm, offset]

theorem startsFrom_append (a : Long) (ns ms : List Nat) :
    startsFrom a (ns ++ ms) = startsFrom a ns ++ startsFrom (a + BitVec.ofNat 32 ns.sum) ms := by
  induction ns generalizing a with
  | nil => simp [startsFrom]
  | cons n ns ih =>
    rw [List.cons_append, startsFrom, startsFrom, ih, List.sum_cons, BitVec.ofNat_add,
      BitVec.add_assoc, List.cons_append]

theorem startsFrom_add (a b : Long) (ns : List Nat) :
    startsFrom (a + b) ns = (startsFrom a ns).map (· + b) := by
  induction ns generalizing a with
  | nil => rfl
  | cons n ns ih =>
    have hcomm : a + b + BitVec.ofNat 32 n = a + BitVec.ofNat 32 n + b := by
      rw [BitVec.add_assoc, BitVec.add_comm b, BitVec.add_assoc]
    rw [startsFrom, startsFrom, hcomm, ih, List.map_cons]

theorem starts_append (h : l.lengths = l₁.lengths ++ l₂.lengths) :
    l.starts = l₁.starts ++ l₂.starts.map (· + BitVec.ofNat 32 l₁.lengths.sum) := by
  rw [starts, h, startsFrom_append, startsFrom_add, starts, starts]

theorem toNat_le_of_mem_starts (hsize : l.lengths.sum < 2 ^ 32) {a : Long} (ha : a ∈ l.starts) :
    a.toNat ≤ l.lengths.sum := by
  obtain ⟨k, hk⟩ := List.mem_iff_getElem?.mp ha
  have hlt : k < l.lengths.length := by
    have h := (List.getElem?_eq_some_iff.mp hk).1
    rwa [starts, length_startsFrom] at h
  rw [l.starts_getElem? hlt] at hk
  rw [← Option.some.inj hk, l.toNat_addressOf hsize]
  exact l.offset_le_sum k

end Layout

namespace Outline

variable {o o' : Outline} {l l' : Layout} {ps ps' : List (Statement × List Byte)}

theorem built_after (waiting : List String)
    (h : List.Forall₂ (fun r e => Statement.ofBody r.2 = .ok e.1) o.statements ps) :
    List.Forall₂ (fun r e => Statement.ofBody r.2 = .ok e.1) (o.after waiting).statements ps := by
  obtain ⟨_ | ⟨s, ss⟩, trailing⟩ := o
  · exact h
  · cases h with
    | cons hs hss => exact .cons hs hss

/-- **One outline after another** assembles to what the two assemble to, if they have no label in
common. -/
theorem Assembles.append (h : o.Assembles l ps) (h' : o'.Assembles l' ps')
    (hdisjoint : ∀ name, ¬ (l.Defines name ∧ l'.Defines name)) :
    (o.append o').Assembles
      ⟨l.symbols ++ Symbols.shift ps.length l'.symbols, l.lengths ++ l'.lengths⟩ (ps ++ ps') where
  built := List.rel_append h.built (built_after o.trailing h'.built)
  symbols := by
    have hnames : ∀ e ∈ Symbols.shift o.statements.length o'.definitions,
        e.1 ∉ Symbols.names (Symbols.ofPairs o.definitions) := by
      intro e he hmem
      obtain ⟨d, hd, rfl⟩ := List.mem_map.mp he
      refine hdisjoint d.1
        ⟨Layout.defines_iff_mem_names.mpr ?_, Layout.defines_iff_mem_names.mpr ?_⟩
      · rw [h.symbols]
        exact hmem
      · rw [h'.symbols]
        exact Symbols.mem_names_ofPairs.mpr (List.mem_map_of_mem hd)
    rw [Outline.symbols, definitions_append, Symbols.ofPairs_append hnames, Symbols.ofPairs_shift,
      h.symbols, h'.symbols, h.length_eq]
    rfl
  lengths := by rw [h.lengths, h'.lengths, List.map_append]
  bytes k e hk := by
    rw [List.getElem?_append] at hk
    split at hk
    · -- a statement of the first outline, and its label, stay where they are
      next hlt =>
      have hwf := h.wellFormed (List.mem_of_getElem? hk)
      refine hwf.bytes_congr (fun name a ha => ?_) (h.bytes k e hk)
      obtain ⟨index, hname, rfl⟩ := Layout.resolve_ok_iff.mp ha
      have hstay : ∀ j, j ≤ ps.length → Layout.addressOf
          ⟨l.symbols ++ Symbols.shift ps.length l'.symbols, l.lengths ++ l'.lengths⟩ j =
            l.addressOf j := by
        intro j hj
        rw [Layout.addressOf_eq, Layout.addressOf_eq,
          Layout.offset_append_of_le l l' rfl (by rwa [h.length_lengths])]
      refine ⟨_, Layout.resolve_ok_iff.mpr ⟨index, ?_, rfl⟩, ?_⟩
      · exact Symbols.lookup_append_left hname
      · rw [hstay index (h.lookup_le hname), hstay k hlt.le]
    · -- a statement of the second one moves with its label
      next hle =>
      obtain ⟨j, rfl⟩ := Nat.exists_eq_add_of_le' (Nat.le_of_not_lt hle)
      rw [Nat.add_sub_cancel] at hk
      have hwf := h'.wellFormed (List.mem_of_getElem? hk)
      refine hwf.bytes_congr (fun name a ha => ?_) (h'.bytes j e hk)
      obtain ⟨index, hname, rfl⟩ := Layout.resolve_ok_iff.mp ha
      have hmove : ∀ j, Layout.addressOf
          ⟨l.symbols ++ Symbols.shift ps.length l'.symbols, l.lengths ++ l'.lengths⟩
            (j + ps.length) = l'.addressOf j + BitVec.ofNat 32 l.lengths.sum := by
        intro j
        rw [Layout.addressOf_eq, Layout.addressOf_eq, ← h.length_lengths,
          Layout.offset_append l l' rfl, BitVec.ofNat_add]
      refine ⟨_, Layout.resolve_ok_iff.mpr ⟨index + ps.length, ?_, rfl⟩, ?_⟩
      · refine Symbols.lookup_append_right (fun hl => ?_) hname
        exact hdisjoint name ⟨Layout.defines_iff_mem_names.mpr hl,
          Layout.defines_iff.mpr ⟨index, hname⟩⟩
      · rw [hmove, hmove]
        bv_omega

end Outline

/-! ## Programs -/

/-- **Assembling one text after another** gives one program after the other. Let the first text be
empty or end its last line, and let no label be defined in both texts. Then the code, the lengths
and the labels of the second program follow those of the first; its statements start by the length
of the first code later, and its labels name statements by the number of the first statements
later. -/
theorem assemble_append {a b : String} {p q : Program} (hp : Program.assemble a = .ok p)
    (hq : Program.assemble b = .ok q) (ha : a = "" ∨ ∃ s, a = s ++ "\n")
    (hdisjoint : ∀ name, ¬ (p.layout.Defines name ∧ q.layout.Defines name))
    (hsize : p.code.length + q.code.length < 2 ^ 32) :
    ∃ r, Program.assemble (a ++ b) = .ok r ∧ r.code = p.code ++ q.code ∧
      r.layout.lengths = p.layout.lengths ++ q.layout.lengths ∧
      r.layout.starts.map BitVec.toNat = p.layout.starts.map BitVec.toNat ++
        q.layout.starts.map (fun start => start.toNat + p.code.length) ∧
      (∀ name index, p.layout.symbols.lookup name = some index →
        r.layout.symbols.lookup name = some index) ∧
      (∀ name index, q.layout.symbols.lookup name = some index →
        r.layout.symbols.lookup name = some (index + p.entries.length)) ∧
      ∀ name, r.layout.Defines name → p.layout.Defines name ∨ q.layout.Defines name := by
  obtain ⟨o, hreads, ho⟩ := Program.exists_assemble_iff.mp ⟨p, hp, rfl, rfl⟩
  obtain ⟨o', hreads', ho'⟩ := Program.exists_assemble_iff.mp ⟨q, hq, rfl, rfl⟩
  have hend : a.toList = [] ∨ ∃ cs, a.toList = cs ++ ['\n'] := by
    rcases ha with rfl | ⟨s, rfl⟩
    · exact .inl rfl
    · exact .inr ⟨s.toList, String.toList_append⟩
  have hread := hreads.append hreads' hend
  rw [← String.toList_append] at hread
  obtain ⟨r, hr, hlayout, hpieces⟩ :=
    Program.exists_assemble_iff.mpr ⟨_, hread, ho.append ho' hdisjoint⟩
  have hlengths : r.layout.lengths = p.layout.lengths ++ q.layout.lengths := by rw [hlayout]
  have hsymbols : r.layout.symbols =
      p.layout.symbols ++ Symbols.shift p.entries.length q.layout.symbols := by
    rw [hlayout, ← p.length_pieces]
  have hsum := (Program.assemble_assembled hp).length_code
  have hsum' := (Program.assemble_assembled hq).length_code
  refine ⟨r, hr, ?_, hlengths, ?_, fun name index hname => ?_, fun name index hname => ?_, ?_⟩
  · rw [r.code_eq_flatMap, hpieces, List.flatMap_append, ← p.code_eq_flatMap, ← q.code_eq_flatMap]
  · rw [Layout.starts_append _ _ hlengths, List.map_append, List.map_map]
    congr 1
    refine List.map_congr_left fun start hstart => ?_
    have hle := Layout.toNat_le_of_mem_starts (by omega) hstart
    rw [Function.comp_apply, ← hsum, toNat_add_ofNat (by omega)]
  · rw [hsymbols]
    exact Symbols.lookup_append_left hname
  · rw [hsymbols]
    refine Symbols.lookup_append_right (fun hl => ?_) hname
    exact hdisjoint name ⟨Layout.defines_iff_mem_names.mpr hl,
      Layout.defines_iff.mpr ⟨index, hname⟩⟩
  · intro name hname
    rw [Layout.defines_iff_mem_names, hsymbols, Symbols.names, List.map_append,
      List.mem_append] at hname
    refine hname.imp Layout.defines_iff_mem_names.mpr fun h => ?_
    rw [Symbols.shift, List.map_map] at h
    exact Layout.defines_iff_mem_names.mpr h

/-- A program of one jump to itself, with a label behind it. -/
def waitLoop : Program where
  text := "wait: jmp wait\nnext:\n"
  entries := [⟨.instruction ⟨"jmp", ⟨.jmp, .long, [.label "wait"]⟩⟩, 1,
    [0xE9, 0xFB, 0xFF, 0xFF, 0xFF]⟩]
  layout := ⟨[("wait", 0), ("next", 1)], [5]⟩
  warnings := []

/-- A program of one data byte and a jump to itself. -/
def byteLoop : Program where
  text := ".byte 7\nloop: jmp loop"
  entries := [⟨.directive ⟨".byte", .byte, [7]⟩, 1, [7]⟩,
    ⟨.instruction ⟨"jmp", ⟨.jmp, .long, [.label "loop"]⟩⟩, 2, [0xE9, 0xFB, 0xFF, 0xFF, 0xFF]⟩]
  layout := ⟨[("loop", 1)], [1, 5]⟩
  warnings := []

theorem assemble_waitLoop : Program.assemble waitLoop.text = .ok waitLoop := by
  decide +kernel

theorem assemble_byteLoop : Program.assemble byteLoop.text = .ok byteLoop := by
  decide +kernel

/-- The label behind the first program names the first statement of the second. -/
theorem assemble_append_loops : ∃ r, Program.assemble (waitLoop.text ++ byteLoop.text) = .ok r ∧
    r.code = [0xE9, 0xFB, 0xFF, 0xFF, 0xFF, 7, 0xE9, 0xFB, 0xFF, 0xFF, 0xFF] ∧
    r.layout.symbols.lookup "next" = some 1 ∧ r.layout.symbols.lookup "loop" = some 2 := by
  have hdisjoint : ∀ name, ¬ (waitLoop.layout.Defines name ∧ byteLoop.layout.Defines name) := by
    rintro name ⟨h, h'⟩
    simp only [Layout.defines_iff_mem_names, Symbols.names, waitLoop, byteLoop, List.map_cons,
      List.map_nil, List.mem_cons, List.not_mem_nil, or_false] at h h'
    subst h'
    revert h
    decide
  obtain ⟨r, hr, hcode, -, -, hwait, hloop, -⟩ :=
    assemble_append assemble_waitLoop assemble_byteLoop (.inr ⟨"wait: jmp wait\nnext:", by decide⟩)
      hdisjoint (by decide)
  exact ⟨r, hr, hcode, hwait "next" 1 (by decide), hloop "loop" 1 (by decide)⟩

end Ia32
