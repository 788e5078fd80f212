import Ia32.Assembly.Statement
import Ia32.Proofs.Written
import Mathlib.Data.List.TakeWhile

/-!
# Statements and lines read back

* `Statement.Writable`, `Statement.raw`: the statements whose written form can be read, and what it
  says; **`readBody_text`**: the written form of a statement, read back;
* `Statement.Writable.isTextChar`, `Statement.Writable.bare`: the characters that it has, and none
  that is trimmed;
* **`Line.read_labelled`**: a line of labels and a statement, read back.
-/

set_option autoImplicit false

namespace Ia32

/-! ## Statements -/

/-- The statements whose written form can be read. -/
inductive Statement.Writable : Statement → Prop where
  | instruction {i : Instruction} (hoperator : (Operator.find? i.operator).isSome = true)
      (hoperands : ∀ op ∈ i.instr.operands, op.Writable) : Writable (instruction i)
  | directive {d : Directive} (hname : (Directive.table.lookup d.name).isSome = true)
      (hne : d.values ≠ []) (hvalues : ∀ v ∈ d.values, 0 ≤ v ∧ v < 2 ^ 63) : Writable (directive d)

/-- What the written form of a statement says. -/
def Statement.raw : Statement → RawBody
  | instruction i => .instruction i.operator (i.instr.operands.map Operand.raw)
  | directive d => .directive d.name d.values

theorem Operator.all_isName : ∀ s ∈ spellings, isName s.1.toList = true ∧
    s.1.toList.map Char.toLower = s.1.toList ∧ s.1.toList.head? ≠ some '.' := by
  decide +kernel

theorem Directive.all_isName : ∀ s ∈ table, isName s.1.toList = true ∧
    s.1.toList.map Char.toLower = s.1.toList ∧ s.1.toList.head? = some '.' := by
  decide +kernel

/-- What stands behind the first word of a statement: nothing, or its operands after a blank. -/
inductive Behind : List Char → List Char → Prop where
  | nothing : Behind [] []
  | operands {args : List Char} (h : args ≠ []) : Behind (' ' :: args) args

theorem Behind.cut {w args tail : List Char} (h : Behind tail args) (hw : Word w)
    (hargs : Text.Bare args) :
    ((w ++ tail).takeWhile fun c => !Text.isBlank c) = w ∧
      Text.trim ((w ++ tail).dropWhile fun c => !Text.isBlank c) = args := by
  have hnot : ∀ c ∈ w, (!Text.isBlank c) = true := by
    intro c hc
    rw [isBlank_of_isWordChar (hw c hc)]
    rfl
  rw [List.takeWhile_append_of_pos hnot, List.dropWhile_append_of_pos hnot]
  refine ⟨?_, ?_⟩
  · cases h <;> exact List.append_nil w
  · cases h with
    | nothing => rfl
    | operands h => exact (Text.trim_cons_blank rfl args).trans (Text.trim_of_bare hargs)

theorem Behind.bare {w args tail : List Char} (h : Behind tail args) (hw : Word w) (hne : w ≠ [])
    (hargs : Text.Bare args) : Text.Bare (w ++ tail) := by
  cases h with
  | nothing =>
    rw [List.append_nil]
    exact hw.bare
  | operands h => exact hw.bare.between hne hargs h [' ']

namespace Statement

theorem toList_listText (ops : List Operand) : (Operand.listText ops).toList =
    [',', ' '].intercalate (ops.map fun op => op.text.toList) := by
  rw [Operand.listText, String.toList_intercalate, List.map_map]
  rfl

/-- The first word of a statement, its name. -/
def word : Statement → List Char
  | instruction i => i.operator.toList
  | directive d => d.name.toList

/-- The operands of a statement as they are written, each of them for itself. -/
def pieces : Statement → List (List Char)
  | instruction i => i.instr.operands.map fun op => op.text.toList
  | directive d => d.values.map fun v => (Text.wrappedHex v).toList

/-- **The written form of a statement** is its first word and what stands behind it. -/
theorem Writable.exists_behind {s : Statement} (h : s.Writable) :
    ∃ tail, s.text.toList = s.word ++ tail ∧ Behind tail ([',', ' '].intercalate s.pieces) := by
  cases h with
  | @instruction i hoperator hoperands =>
    change ∃ tail, (Operand.statementText i.operator i.instr.operands).toList =
      i.operator.toList ++ tail ∧
        Behind tail ([',', ' '].intercalate (i.instr.operands.map fun op => op.text.toList))
    unfold Operand.statementText
    cases hops : i.instr.operands with
    | nil => exact ⟨[], (List.append_nil _).symm, .nothing⟩
    | cons op ops =>
      rw [hops] at hoperands
      have hne := (hoperands op List.mem_cons_self).piece.ne_nil
      refine ⟨_, ?_, .operands (intercalate_ne_nil hne _)⟩
      rw [if_neg (by simp), String.toList_append, String.toList_append, toList_listText,
        List.append_assoc]
      rfl
  | @directive d hname hne hvalues =>
    obtain ⟨v, vs, hvs⟩ := List.exists_cons_of_ne_nil hne
    have hv : (Text.wrappedHex v).toList ≠ [] := by simp [Text.wrappedHex]
    refine ⟨_, ?_, .operands ?_⟩
    · change (d.name ++ " " ++ ", ".intercalate (d.values.map Text.wrappedHex)).toList = _
      rw [String.toList_append, String.toList_append, String.toList_intercalate, List.map_map,
        List.append_assoc]
      rfl
    · rw [pieces, hvs]
      exact intercalate_ne_nil hv _

theorem piece_wrappedHex {v : Int} (h0 : 0 ≤ v) (h1 : v < 2 ^ 63) :
    Piece (Text.wrappedHex v).toList := by
  rw [Text.wrappedHex_of_nonneg h0 h1]
  refine (word_signedHex v).piece ?_
  rw [Text.signedHex, String.toList_append]
  split <;> simp

theorem Writable.piece {s : Statement} (h : s.Writable) : ∀ p ∈ s.pieces, Piece p := by
  intro p hp
  cases h with
  | instruction hoperator hoperands =>
    obtain ⟨op, hop, rfl⟩ := List.mem_map.mp hp
    exact (hoperands op hop).piece
  | directive hname hne hvalues =>
    obtain ⟨v, hv, rfl⟩ := List.mem_map.mp hp
    exact piece_wrappedHex (hvalues v hv).1 (hvalues v hv).2

theorem Writable.isName_word {s : Statement} (h : s.Writable) :
    isName s.word = true ∧ s.word.map Char.toLower = s.word := by
  cases h with
  | instruction hoperator hoperands =>
    obtain ⟨s, hs⟩ := Option.isSome_iff_exists.mp hoperator
    obtain ⟨hisName, hlower, -⟩ := Operator.all_isName _ (mem_of_lookup hs)
    exact ⟨hisName, hlower⟩
  | directive hname hne hvalues =>
    obtain ⟨w, hw⟩ := Option.isSome_iff_exists.mp hname
    obtain ⟨hisName, hlower, -⟩ := Directive.all_isName _ (mem_of_lookup hw)
    exact ⟨hisName, hlower⟩

end Statement

/-- **The written form of a statement** is read as it was. -/
theorem readBody_text {s : Statement} (h : s.Writable) : readBody s.text.toList = .ok s.raw := by
  obtain ⟨tail, htext, htail⟩ := h.exists_behind
  obtain ⟨hisName, hlower⟩ := h.isName_word
  obtain ⟨htake, hdrop⟩ := htail.cut (word_of_isName hisName) (bare_intercalate h.piece)
  have hargs := splitArgs_intercalate h.piece
  rw [readBody, htext, htake, hdrop, hlower]
  dsimp only
  cases h with
  | @instruction i hoperator hoperands =>
    obtain ⟨s, hs⟩ := Option.isSome_iff_exists.mp hoperator
    have hhead : (Statement.instruction i).word.head? ≠ some '.' :=
      (Operator.all_isName _ (mem_of_lookup hs)).2.2
    have hread : (i.instr.operands.map fun op => op.text.toList).mapM readOperand =
        .ok (i.instr.operands.map Operand.raw) := by
      rw [mapM_ok_iff, List.forall₂_map_left_iff, List.forall₂_map_right_iff, List.forall₂_same]
      exact fun op hop => readOperand_text (hoperands op hop)
    rw [if_neg hhead]
    refine guard_ok_iff.mpr ⟨by rw [hisName]; decide, bind_ok_iff.mpr ⟨_, hargs, ?_⟩⟩
    refine bind_ok_iff.mpr ⟨_, hread, ?_⟩
    rw [Statement.word, String.ofList_toList]
    rfl
  | @directive d hname hne hvalues =>
    obtain ⟨w, hw⟩ := Option.isSome_iff_exists.mp hname
    have hhead : (Statement.directive d).word.head? = some '.' :=
      (Directive.all_isName _ (mem_of_lookup hw)).2.2
    have hread : (d.values.map fun v => (Text.wrappedHex v).toList).mapM readNumber =
        .ok d.values := by
      rw [mapM_ok_iff, List.forall₂_map_left_iff, List.forall₂_same]
      exact fun v hv => readNumber_wrappedHex (hvalues v hv).1 (hvalues v hv).2
    rw [if_pos hhead]
    refine bind_ok_iff.mpr ⟨_, hargs, bind_ok_iff.mpr ⟨_, hread, ?_⟩⟩
    rw [Statement.word, String.ofList_toList]
    rfl

/-! ## Lines -/

/-- The characters of the written forms of statements. -/
def isTextChar (c : Char) : Bool := isWordChar c || c ∈ [' ', ',', '(', ')']

theorem isTextChar_of_isWordChar {c : Char} (h : isWordChar c = true) : isTextChar c = true := by
  rw [isTextChar, h]
  rfl

theorem Statement.Writable.isTextChar {s : Statement} (h : s.Writable) {c : Char}
    (hc : c ∈ s.text.toList) : isTextChar c = true := by
  have hpiece : ∀ p ∈ s.pieces, ∀ d ∈ p, Ia32.isTextChar d = true := by
    intro p hp d hd
    cases h with
    | instruction hoperator hoperands =>
      obtain ⟨op, hop, rfl⟩ := List.mem_map.mp hp
      rcases (hoperands op hop).mem_text hd with hword | rfl | rfl | rfl
      · exact isTextChar_of_isWordChar hword
      all_goals decide
    | directive hname hne hvalues =>
      obtain ⟨v, hv, rfl⟩ := List.mem_map.mp hp
      rw [Text.wrappedHex_of_nonneg (hvalues v hv).1 (hvalues v hv).2] at hd
      exact isTextChar_of_isWordChar (word_signedHex v d hd)
  have hargs : ∀ d ∈ [',', ' '].intercalate s.pieces, Ia32.isTextChar d = true := by
    intro d hd
    rcases Text.mem_intercalate hd with hd | ⟨p, hp, hd⟩
    · have hsep : [',', ' '].all Ia32.isTextChar = true := by decide
      exact List.all_eq_true.mp hsep d hd
    · exact hpiece p hp d hd
  obtain ⟨tail, htext, htail⟩ := h.exists_behind
  rw [htext, List.mem_append] at hc
  rcases hc with hc | hc
  · exact isTextChar_of_isWordChar (word_of_isName h.isName_word.1 c hc)
  · generalize [',', ' '].intercalate s.pieces = args at htail hargs
    cases htail with
    | nothing => cases hc
    | operands hne =>
      rcases List.mem_cons.mp hc with rfl | hc
      · decide
      · exact hargs c hc

theorem Statement.Writable.bare {s : Statement} (h : s.Writable) : Text.Bare s.text.toList := by
  obtain ⟨tail, htext, htail⟩ := h.exists_behind
  have hisName := h.isName_word.1
  rw [htext]
  refine htail.bare (word_of_isName hisName) (fun hnil => ?_) (bare_intercalate h.piece)
  rw [hnil] at hisName
  cases hisName

theorem Statement.Writable.text_ne_nil {s : Statement} (h : s.Writable) : s.text.toList ≠ [] := by
  obtain ⟨tail, htext, -⟩ := h.exists_behind
  have hisName := h.isName_word.1
  intro hnil
  rw [htext] at hnil
  rw [(List.append_eq_nil_iff.mp hnil).1] at hisName
  cases hisName

/-- A text after labels, each of which has a colon behind it. -/
def labelled (labels : List String) (text : List Char) : List Char :=
  labels.flatMap (fun name => name.toList ++ [':']) ++ text

theorem labelled_cons (name : String) (labels : List String) (text : List Char) :
    labelled (name :: labels) text = name.toList ++ ':' :: labelled labels text := by
  rw [labelled, List.flatMap_cons, List.append_assoc, List.append_assoc]
  rfl

section Labelled

variable {labels : List String} {text : List Char}
  (hlabels : ∀ name ∈ labels, isName name.toList = true)
  (htext : ∀ c ∈ text, isTextChar c = true)

include hlabels htext

/-- A line of labels and a statement has no character of which neither has any, but for colons. -/
theorem mem_labelled {c : Char} (hc : c ∈ labelled labels text) :
    isTextChar c = true ∨ c = ':' := by
  rcases List.mem_append.mp hc with hc | hc
  · obtain ⟨name, hname, hc⟩ := List.mem_flatMap.mp hc
    rcases List.mem_append.mp hc with hc | hc
    · exact .inl (isTextChar_of_isWordChar (word_of_isName (hlabels name hname) c hc))
    · exact .inr (List.mem_singleton.mp hc)
  · exact .inl (htext c hc)

theorem ne_of_mem_labelled {c d : Char} (hc : c ∈ labelled labels text)
    (hd : isTextChar d = false) (hcolon : d ≠ ':') : c ≠ d := by
  rintro rfl
  rcases mem_labelled hlabels htext hc with h | h
  · rw [h] at hd
    cases hd
  · exact hcolon h

theorem onOneLine_labelled : Text.OnOneLine (labelled labels text) := by
  intro c hc
  exact ⟨ne_of_mem_labelled hlabels htext hc (by decide) (by decide),
    ne_of_mem_labelled hlabels htext hc (by decide) (by decide)⟩

theorem dropComment_labelled : dropComment (labelled labels text) = labelled labels text := by
  rw [dropComment, List.takeWhile_eq_self_iff]
  intro c hc
  rw [Bool.and_eq_true, bne_iff_ne, bne_iff_ne]
  exact ⟨ne_of_mem_labelled hlabels htext hc (by decide) (by decide),
    ne_of_mem_labelled hlabels htext hc (by decide) (by decide)⟩

theorem takeLabels_labelled :
    takeLabels (Text.splitOn ':' (labelled labels text)) = (labels, text) := by
  have hcolon : ':' ∉ text := fun h => absurd (htext ':' h) (by decide)
  clear htext
  induction labels with
  | nil =>
    rw [labelled, List.flatMap_nil, List.nil_append, Text.splitOn_of_not_mem hcolon]
    rfl
  | cons name labels ih =>
    have hisName := hlabels name List.mem_cons_self
    have hword := word_of_isName hisName
    have hrest := ih fun name h => hlabels name (List.mem_cons_of_mem _ h)
    obtain ⟨q, qs, hqs⟩ := List.exists_cons_of_ne_nil
      (Text.splitOn_ne_nil ':' (labelled labels text))
    rw [labelled_cons, Text.splitOn_append (hword.not_mem (by decide)), hqs, takeLabels,
      Text.trim_of_bare hword.bare, if_pos hisName, ← hqs, hrest, String.ofList_toList]

/-- **A line of labels and a text** is read by its parts. -/
theorem Line.read_labelled (hbare : Text.Bare text) : Line.read (labelled labels text) =
    if text = [] then .ok ⟨labels, none⟩
    else (fun body => ⟨labels, some body⟩) <$> readBody text := by
  rw [Line.read, dropComment_labelled hlabels htext, takeLabels_labelled hlabels htext]
  dsimp only
  rw [Text.trim_of_bare hbare]
  cases text with
  | nil => rfl
  | cons c cs =>
    rw [if_neg (List.cons_ne_nil c cs)]
    change (readBody (c :: cs) >>= fun body => pure (Line.mk labels (some body))) = _
    cases readBody (c :: cs) <;> rfl

end Labelled

theorem Line.read_labels {labels : List String}
    (hlabels : ∀ name ∈ labels, isName name.toList = true) :
    Line.read (labelled labels []) = .ok ⟨labels, none⟩ :=
  Line.read_labelled hlabels (fun _ hc => absurd hc List.not_mem_nil) ⟨nofun, nofun⟩

/-- **A line of labels and a statement** is read as it was. -/
theorem Line.read_statement {labels : List String}
    (hlabels : ∀ name ∈ labels, isName name.toList = true) {s : Statement} (h : s.Writable) :
    Line.read (labelled labels s.text.toList) = .ok ⟨labels, some s.raw⟩ := by
  rw [Line.read_labelled hlabels (fun _ hc => h.isTextChar hc) h.bare, if_neg h.text_ne_nil,
    readBody_text h]
  rfl

end Ia32
