import Ia32.Proofs.Lines

/-!
# Labels that are defined again

* `notices`: the warnings that labels call for, each label on a line of its own;
* `redefinitions_eq`: the warnings about definitions are those;
* **`warnings_iff`**: a program warns of every label that is defined again, on the line of the
  statement behind the label. This need not be the line of the label (`warnings_displaced`).
-/

set_option autoImplicit false

namespace Ia32

/-! ## Warnings of labels -/

/-- The warning about a label on a line, and the note about the line where it is defined already.
There is neither if there is no such line. -/
def noticesOf (name : String) (line : Nat) : Option Nat → List Warning
  | some before => [⟨.redefined name, line⟩, ⟨.alreadyDefined, before⟩]
  | none => []

/-- The warnings that labels call for, in their order: one about each that is defined before, on its
line, and a note on the line of the nearest label before it that has its name. -/
def notices (line : Mark → Nat) (ms : List Mark) : List Warning :=
  ms.zipIdx.flatMap fun m =>
    noticesOf m.1.name (line m.1) ((nearest m.1.name (ms.take m.2)).map line)

theorem redefinitions_cons (before ds : List Definition) (d : Definition) :
    redefinitions before (d :: ds) =
      noticesOf d.name d.line ((before.find? fun e => e.name == d.name).map Definition.line) ++
        redefinitions (d :: before) ds := by
  rw [redefinitions]
  cases before.find? fun e => e.name == d.name <;> rfl

/-- The definitions before those that are left are taken into account from the nearest on. -/
theorem redefinitions_after (before ms : List Mark) :
    redefinitions (before.map Mark.definition).reverse (ms.map Mark.definition) =
      ms.zipIdx.flatMap fun m => noticesOf m.1.name m.1.statementLine
        ((nearest m.1.name (before ++ ms.take m.2)).map Mark.statementLine) := by
  induction ms generalizing before with
  | nil => rfl
  | cons m ms ih =>
    have hrest := ih (before ++ [m])
    rw [List.map_append, List.reverse_append] at hrest
    rw [List.map_cons, redefinitions_cons,
      find?_reverse_map Mark.definition (fun e => e.name == m.definition.name) (fun _ => rfl),
      Option.map_map, List.zipIdx_cons, List.flatMap_cons, List.zipIdx_succ, List.flatMap_map,
      List.take_zero, List.append_nil]
    refine congrArg _ (hrest.trans (List.flatMap_congr fun e _ => ?_))
    rw [List.append_assoc, List.take_succ_cons, List.singleton_append]

/-- **The warnings about definitions** are those that the labels call for, on the lines of the
statements. -/
theorem redefinitions_eq (ms : List Mark) :
    redefinitions [] (ms.map Mark.definition) = notices Mark.statementLine ms :=
  redefinitions_after [] ms

/-! ## Lines of warnings -/

theorem flatMap_eq_iff {α β : Type} {f g : α → List β} {xs : List α}
    (h : ∀ x ∈ xs, (f x).length = (g x).length) :
    xs.flatMap f = xs.flatMap g ↔ ∀ x ∈ xs, f x = g x := by
  refine ⟨fun heq => ?_, fun heq => List.flatMap_congr heq⟩
  induction xs with
  | nil => exact nofun
  | cons x xs ih =>
    obtain ⟨hx, hxs⟩ := List.forall_mem_cons.mp h
    rw [List.flatMap_cons, List.flatMap_cons] at heq
    obtain ⟨hfirst, hrest⟩ := List.append_inj heq hx
    exact List.forall_mem_cons.mpr ⟨hfirst, ih hxs hrest⟩

theorem notices_eq_iff {line line' : Mark → Nat} {ms : List Mark} :
    notices line ms = notices line' ms ↔ ∀ (k : Nat) (m e : Mark), ms[k]? = some m →
      nearest m.name (ms.take k) = some e → line m = line' m ∧ line e = line' e := by
  unfold notices
  rw [flatMap_eq_iff]
  · constructor
    · intro h k m e hm he
      have hparts := h (m, k) (List.mem_zipIdx_iff_getElem?.mpr hm)
      dsimp only at hparts
      rw [he] at hparts
      simpa [noticesOf] using hparts
    · rintro h ⟨m, k⟩ hm
      dsimp only
      cases he : nearest m.name (ms.take k) with
      | none => rfl
      | some e =>
        obtain ⟨hline, hbefore⟩ := h k m e (List.mem_zipIdx_iff_getElem?.mp hm) he
        rw [Option.map_some, Option.map_some, hline, hbefore]
  · intro m _
    cases nearest m.1.name (ms.take m.2) <;> rfl

/-! ## Main result -/

/-- **A program warns of every label that is defined again**, in the order of the labels, and notes
the nearest definition before it. Warning and note are on the lines of the statements behind the
two labels, or of a label itself that has none behind it. So they are on the lines of the labels
exactly if each label that is named in a warning or a note stands on the line of its statement, or
behind the last one. -/
theorem warnings_iff {text : String} {p : Program} (h : Program.assemble text = .ok p) :
    p.warnings = notices Mark.statementLine (Source.marks text) ∧
      (p.warnings = notices Mark.line (Source.marks text) ↔
        ∀ (k : Nat) (m e : Mark), (Source.marks text)[k]? = some m →
          nearest m.name ((Source.marks text).take k) = some e →
          m.statementLine = m.line ∧ e.statementLine = e.line) := by
  obtain ⟨s, -, hread, -, -, -, -, hwarnings⟩ := Program.assemble_ok h
  have heq : p.warnings = notices Mark.statementLine (Source.marks text) := by
    rw [hwarnings, Source.definitions_eq hread, redefinitions_eq]
  refine ⟨heq, ?_⟩
  rw [heq]
  exact notices_eq_iff

/-- A program with a label that is defined again, on a line of its own. -/
def twoNops : Program where
  text := "a: nop\na:\nnop"
  entries := [⟨.instruction ⟨"nop", ⟨.plain .nop, .long, []⟩⟩, 1,
      [0x90]⟩,
    ⟨.instruction ⟨"nop", ⟨.plain .nop, .long, []⟩⟩, 3, [0x90]⟩]
  layout := ⟨[("a", 1)], [1, 1]⟩
  warnings := [⟨.redefined "a", 3⟩, ⟨.alreadyDefined, 1⟩]

theorem assemble_twoNops : Program.assemble twoNops.text = .ok twoNops := by
  decide +kernel

/-- **A warning can be on a line where no label is written**: the second label stands on line 2, and
the warning is about line 3. -/
theorem warnings_displaced : Program.assemble twoNops.text = .ok twoNops ∧
    notices Mark.line (Source.marks twoNops.text) = [⟨.redefined "a", 2⟩, ⟨.alreadyDefined, 1⟩] ∧
    twoNops.warnings ≠ notices Mark.line (Source.marks twoNops.text) :=
  ⟨assemble_twoNops, by decide +kernel, by decide +kernel⟩

/-- The two labels of this program, of which the second is not on the line of its statement. -/
theorem warnings_iff_twoNops :
    twoNops.warnings = notices Mark.statementLine (Source.marks twoNops.text) ∧
      ∃ (k : Nat) (m e : Mark), (Source.marks twoNops.text)[k]? = some m ∧
        nearest m.name ((Source.marks twoNops.text).take k) = some e ∧
        ¬ (m.statementLine = m.line ∧ e.statementLine = e.line) := by
  obtain ⟨hlines, hiff⟩ := warnings_iff assemble_twoNops
  refine ⟨hlines, ?_⟩
  have hne : twoNops.warnings ≠ notices Mark.line (Source.marks twoNops.text) := by decide +kernel
  have hnot := mt hiff.mpr hne
  push Not at hnot
  obtain ⟨k, m, e, hm, he, hline⟩ := hnot
  exact ⟨k, m, e, hm, he, fun h => hline h.1 h.2⟩

end Ia32
