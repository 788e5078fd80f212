import Ia32.Proofs.Lines

/-!
# Which line is blamed

A text is looked at in four passes. A pass fails for the first line that has a flaw of its kind, and
the passes after it do not begin.

* `Pass`, `Flaw`: the passes, and what each of them finds on a line;
* `Checks`: a computation that is a pass over a text; `Checks.mapM`: one line at a time;
* `Source.checks_read`, `Program.checks_build`, `Program.checks_lengths`, `Program.checks_encode`:
  the four passes;
* **`assemble_blames`**: a text fails exactly if it has a flaw, and the first flaw of the first pass
  that finds any is blamed.
-/

set_option autoImplicit false

namespace Ia32

/-! ## Flaws -/

/-- The passes over a text. -/
inductive Pass where
  | reading
  | building
  | measuring
  | encoding
  deriving DecidableEq

/-- The place of a pass among the passes. -/
def Pass.number : Pass → Nat
  | reading => 1
  | building => 2
  | measuring => 3
  | encoding => 4

/-- A statement that stands on a line of a text. -/
def Source.Says (text : String) (n : Nat) (s : Statement) : Prop :=
  ∃ body, (body, n) ∈ bodies text ∧ Statement.ofBody body = .ok s

/-- What is wrong with a line of a text, by the pass that finds it, with the cause that is given. -/
inductive Flaw (text : String) : Pass → Nat → Cause → Prop where
  /-- The line cannot be read. -/
  | malformed {cs : List Char} {n : Nat} {c : Cause} (hline : (cs, n) ∈ Source.numbered text)
      (hread : Line.read cs = .error c) : Flaw text .reading n c
  /-- The statement cannot be built. -/
  | unbuilt {body : RawBody} {n : Nat} {c : Cause} (hbody : (body, n) ∈ Source.bodies text)
      (hbuild : Statement.ofBody body = .error c) : Flaw text .building n c
  /-- The instruction has an address that has no encoding. -/
  | unsupported {n : Nat} {i : Instruction} {m : MemRef} {x : EncodeError}
      (hsaid : Source.Says text n (.instruction i)) (hmem : .mem m ∈ i.instr.operands)
      (hm : ¬ m.Supported) (hform : m.form = .error x) : Flaw text .measuring n (.encoding x)
  /-- The instruction has a label that is nowhere in the text. -/
  | undefined {n : Nat} {i : Instruction} {name : String}
      (hsaid : Source.Says text n (.instruction i)) (hlabel : .label name ∈ i.instr.operands)
      (hname : ∀ m ∈ Source.marks text, m.name ≠ name) :
      Flaw text .encoding n (.undefinedLabel name)

namespace Source

variable {text : String}

theorem Says.number {n : Nat} {s : Statement} (h : Says text n s) :
    ∃ cs, (cs, n) ∈ numbered text := by
  obtain ⟨body, hbody, -⟩ := h
  obtain ⟨cs, _, hcs, -⟩ := exists_line_of_mem_bodies hbody
  exact ⟨cs, hcs⟩

theorem Says.wellFormed {n : Nat} {i : Instruction} (h : Says text n (.instruction i)) :
    i.WellFormed := by
  obtain ⟨body, -, hbody⟩ := h
  exact Instruction.wellFormed_of_ofBody hbody

end Source

theorem Flaw.line_bounds {text : String} {pass : Pass} {n : Nat} {c : Cause}
    (h : Flaw text pass n c) : 1 ≤ n ∧ n ≤ (Text.lines text.toList).length := by
  have hnumber : ∃ cs, (cs, n) ∈ Source.numbered text := by
    cases h with
    | malformed hline hread => exact ⟨_, hline⟩
    | unbuilt hbody hbuild =>
      obtain ⟨cs, _, hcs, -⟩ := Source.exists_line_of_mem_bodies hbody
      exact ⟨cs, hcs⟩
    | unsupported hsaid | undefined hsaid => exact hsaid.number
  obtain ⟨cs, hcs⟩ := hnumber
  obtain ⟨hone, hline⟩ := Source.mem_numbered_iff.mp hcs
  have hlt := (List.getElem?_eq_some_iff.mp hline).1
  dsimp only at hone hlt
  omega

/-! ## Passes -/

/-- A computation that looks for the flaws of one pass: it succeeds only where there are none, and
fails only for the first of them. -/
structure Checks (text : String) (pass : Pass) {α : Type} (x : Except AssemblyError α) : Prop where
  ok : ∀ a, x = .ok a → ∀ n c, ¬ Flaw text pass n c
  error : ∀ e, x = .error e → ∃ n, e.line = some n ∧ Flaw text pass n e.cause ∧
    ∀ n' < n, ∀ c, ¬ Flaw text pass n' c

namespace Checks

variable {text : String} {pass : Pass} {α β : Type}

theorem map {x : Except AssemblyError α} {g : α → β} (h : Checks text pass x) :
    Checks text pass (g <$> x) := by
  constructor
  · intro b hb
    obtain ⟨a, ha, -⟩ := map_ok_iff.mp hb
    exact h.ok a ha
  · exact fun e he => h.error e (map_error_iff.mp he)

/-- **A pass one line at a time**: each failure is a flaw on the line, and each flaw a failure. -/
theorem mapM {f : α → Except AssemblyError β} {line : α → Nat} {xs : List α}
    (hsorted : xs.Pairwise (line · < line ·))
    (herror : ∀ x ∈ xs, ∀ e, f x = .error e →
      e.line = some (line x) ∧ Flaw text pass (line x) e.cause)
    (hflaw : ∀ n c, Flaw text pass n c → ∃ x ∈ xs, line x = n ∧ ∃ e, f x = .error e) :
    Checks text pass (xs.mapM f) := by
  constructor
  · intro ys hys n c hc
    obtain ⟨x, hx, -, e, he⟩ := hflaw n c hc
    obtain ⟨y, -, hy⟩ := exists_of_forall₂ (mapM_ok_iff.mp hys).flip hx
    cases hy.symm.trans he
  · intro e he
    obtain ⟨before, x, after, rfl, hbefore, hx⟩ := mapM_error_iff.mp he
    obtain ⟨hline, hcause⟩ := herror x (by simp) e hx
    refine ⟨line x, hline, hcause, fun n hn c hc => ?_⟩
    rw [List.pairwise_append, List.pairwise_cons] at hsorted
    -- a line further up is one of those before
    obtain ⟨y, hy, rfl, e', he'⟩ := hflaw n c hc
    rcases List.mem_append.mp hy with hy | hy
    · obtain ⟨b, hb⟩ := hbefore y hy
      cases hb.symm.trans he'
    · rcases List.mem_cons.mp hy with rfl | hy
      · exact absurd hn (lt_irrefl _)
      · have hlt := hsorted.2.1.1 y hy
        omega

end Checks

/-! ## Reading -/

theorem Source.checks_read (text : String) : Checks text .reading (Source.read text) := by
  unfold Source.read
  rw [readLines_eq_mapM]
  refine (Checks.mapM (numbered_pairwise text) ?_ ?_).map
  · rintro ⟨cs, n⟩ hcs e he
    obtain ⟨hcause, hline⟩ := onLine_error_iff.mp (map_error_iff.mp he)
    exact ⟨hline, .malformed hcs hcause⟩
  · intro n c h
    cases h with
    | malformed hline hread =>
      refine ⟨_, hline, rfl, ⟨c, some n⟩, map_error_iff.mpr ?_⟩
      exact onLine_error_iff.mpr ⟨hread, rfl⟩

/-! ## Building -/

namespace Program

variable {text : String} {source : Source} {statements : List (Statement × Nat)}

theorem build_eq_mapM (h : Source.read text = .ok source) : build source.statements =
    (Source.bodies text).mapM fun b => do
      return (← onLine b.2 (Statement.ofBody b.1), b.2) := by
  rw [← Source.bodies_eq h, List.mapM_map]
  rfl

theorem checks_build (h : Source.read text = .ok source) :
    Checks text .building (build source.statements) := by
  rw [build_eq_mapM h]
  refine Checks.mapM (Source.bodies_pairwise text) ?_ ?_
  · rintro ⟨body, n⟩ hbody e he
    rcases bind_error_iff.mp he with he | ⟨_, -, he⟩
    · obtain ⟨hcause, hline⟩ := onLine_error_iff.mp he
      exact ⟨hline, .unbuilt hbody hcause⟩
    · cases he
  · intro n c h
    cases h with
    | unbuilt hbody hbuild =>
      refine ⟨_, hbody, rfl, ⟨c, some n⟩, bind_error_iff.mpr (.inl ?_)⟩
      exact onLine_error_iff.mpr ⟨hbuild, rfl⟩

/-! ## Measuring -/

theorem mem_statements_iff (hread : Source.read text = .ok source)
    (hbuild : build source.statements = .ok statements) {s : Statement} {n : Nat} :
    (s, n) ∈ statements ↔ Source.Says text n s := by
  have hall := Source.forall₂_bodies hread hbuild
  constructor
  · intro hs
    obtain ⟨⟨body, n'⟩, hbody, hbuilt, hline⟩ := exists_of_forall₂ hall hs
    obtain rfl : n = n' := hline
    exact ⟨body, hbody, hbuilt⟩
  · rintro ⟨body, hbody, hbuilt⟩
    obtain ⟨⟨s', n'⟩, hs', hbuilt', hline⟩ := exists_of_forall₂ hall.flip hbody
    obtain rfl : n' = n := hline
    obtain rfl : s = s' := Except.ok.inj (hbuilt.symm.trans hbuilt')
    exact hs'

theorem statements_pairwise (hread : Source.read text = .ok source)
    (hbuild : build source.statements = .ok statements) :
    statements.Pairwise (·.2 < ·.2) := by
  have hlines : statements.map Prod.snd = (Source.bodies text).map Prod.snd := by
    rw [← List.forall₂_eq_eq_eq, List.forall₂_map_left_iff, List.forall₂_map_right_iff]
    exact (Source.forall₂_bodies hread hbuild).flip.imp fun _ _ h => h.2
  have hsorted := Source.bodies_pairwise text
  rw [← List.pairwise_map, ← hlines, List.pairwise_map] at hsorted
  exact hsorted

theorem checks_lengths (hread : Source.read text = .ok source)
    (hbuild : build source.statements = .ok statements) :
    Checks text .measuring (Program.lengths statements) := by
  refine Checks.mapM (statements_pairwise hread hbuild) ?_ ?_
  · rintro ⟨s, n⟩ hs e he
    obtain ⟨hcause, hline⟩ := onLine_error_iff.mp he
    have hsaid := (mem_statements_iff hread hbuild).mp hs
    refine ⟨hline, ?_⟩
    cases s with
    | directive d => cases hcause
    | instruction i =>
      obtain ⟨m, x, hmem, hform, hx⟩ := hsaid.wellFormed.length_error hcause
      have hm := (MemRef.not_supported_iff (hsaid.wellFormed.isLong m hmem)).mpr ⟨x, hform⟩
      rw [hx]
      exact .unsupported hsaid hmem hm hform
  · intro n c h
    cases h with
    | @unsupported _ i m x hsaid hmem hm hform =>
      refine ⟨_, (mem_statements_iff hread hbuild).mpr hsaid, rfl, ?_⟩
      cases hlength : i.length with
      | ok k => exact absurd (hsaid.wellFormed.length_iff.mp ⟨k, hlength⟩ m hmem) hm
      | error c => exact ⟨⟨c, some n⟩, onLine_error_iff.mpr ⟨hlength, rfl⟩⟩

/-! ## Encoding -/

theorem encode_eq_mapM (layout : Layout) (k : Nat) (statements : List (Statement × Nat)) :
    encode layout k statements =
      (statements.zipIdx k).mapM fun s => encodeEntry layout s.2 s.1.1 s.1.2 := by
  induction statements generalizing k with
  | nil => rfl
  | cons s statements ih =>
    rw [List.zipIdx_cons, List.mapM_cons, encode, ih]

theorem not_defines_iff (hread : Source.read text = .ok source) {lengths : List Nat}
    {name : String} :
    ¬ (⟨Symbols.ofDefinitions source.definitions, lengths⟩ : Layout).Defines name ↔
      ∀ m ∈ Source.marks text, m.name ≠ name := by
  rw [Layout.defines_iff_mem_names, Source.symbols_eq hread, Symbols.mem_names_ofPairs,
    Symbols.names, List.map_map, List.mem_map]
  push Not
  rfl

theorem checks_encode (hread : Source.read text = .ok source)
    (hbuild : build source.statements = .ok statements) {lengths : List Nat}
    (hlengths : Program.lengths statements = .ok lengths) :
    Checks text .encoding
      (encode ⟨Symbols.ofDefinitions source.definitions, lengths⟩ 0 statements) := by
  have hsorted : statements.zipIdx.Pairwise (·.1.2 < ·.1.2) := by
    have hstatements := statements_pairwise hread hbuild
    rwa [← List.zipIdx_map_fst 0 statements, List.pairwise_map] at hstatements
  have hwf := build_wellFormed hbuild
  have hforeseen : ∀ s ∈ statements.zipIdx,
      ∃ n, s.1.1.length = .ok n ∧ lengths[s.2]? = some n := by
    rintro ⟨s, k⟩ hs
    have hget : statements[k]? = some s := List.mem_zipIdx_iff_getElem?.mp hs
    obtain ⟨hk, rfl⟩ := List.getElem?_eq_some_iff.mp hget
    have hall := lengths_ok_iff.mp hlengths
    have hk' : k < lengths.length := by rwa [← hall.length_eq]
    exact ⟨lengths[k], hall.get hk hk', List.getElem?_eq_getElem hk'⟩
  rw [encode_eq_mapM]
  refine Checks.mapM hsorted ?_ ?_
  · rintro ⟨⟨s, n⟩, k⟩ hs e he
    obtain ⟨length, hlength, hget⟩ := hforeseen _ hs
    have hmem : (s, n) ∈ statements := List.fst_mem_of_mem_zipIdx hs
    obtain ⟨hcause, hline⟩ := (encodeEntry_error_iff (hwf _ hmem) hlength hget).mp he
    have hsaid := (mem_statements_iff hread hbuild).mp hmem
    refine ⟨hline, ?_⟩
    cases s with
    | directive d => cases hcause
    | instruction i =>
      obtain ⟨name, hlabel, hname, hc⟩ := hsaid.wellFormed.bytes_error hlength hcause
      rw [hc]
      exact .undefined hsaid hlabel ((not_defines_iff hread).mp hname)
  · intro n c h
    cases h with
    | @undefined _ i name hsaid hlabel hname =>
      have hmem := (mem_statements_iff hread hbuild).mpr hsaid
      obtain ⟨k, hk⟩ := List.mem_iff_getElem?.mp hmem
      have hs : ((Statement.instruction i, n), k) ∈ statements.zipIdx :=
        List.mem_zipIdx_iff_getElem?.mpr hk
      obtain ⟨length, hlength, hget⟩ := hforeseen _ hs
      refine ⟨_, hs, rfl, ?_⟩
      cases hbytes : i.bytes ⟨Symbols.ofDefinitions source.definitions, lengths⟩ k with
      | ok code =>
        have hdefines := (hsaid.wellFormed.bytes_iff.mp ⟨code, hbytes⟩).2 name hlabel
        exact absurd hdefines ((not_defines_iff hread).mpr hname)
      | error c =>
        exact ⟨⟨c, some n⟩,
          (encodeEntry_error_iff (hwf _ hmem) hlength hget).mpr ⟨hbytes, rfl⟩⟩

/-! ## All passes -/

theorem not_flaw_of_assemble {p : Program} (h : assemble text = .ok p) (pass : Pass) (n : Nat)
    (c : Cause) : ¬ Flaw text pass n c := by
  obtain ⟨source, statements, hread, hbuild, hlengths, hencode, hsymbols, -⟩ := assemble_ok h
  cases pass with
  | reading => exact (Source.checks_read text).ok source hread n c
  | building => exact (checks_build hread).ok statements hbuild n c
  | measuring => exact (checks_lengths hread hbuild).ok _ hlengths n c
  | encoding =>
    have hlayout : p.layout = ⟨Symbols.ofDefinitions source.definitions, p.layout.lengths⟩ := by
      rw [← hsymbols]
    rw [hlayout] at hencode
    exact (checks_encode hread hbuild hlengths).ok _ hencode n c

end Program

/-- An error about the first flaw that a pass finds, where no pass before it finds any. -/
structure Blames (text : String) (e : AssemblyError) (pass : Pass) (n : Nat) : Prop where
  line : e.line = some n
  flaw : Flaw text pass n e.cause
  first : ∀ n' < n, ∀ c, ¬ Flaw text pass n' c
  earliest : ∀ pass' : Pass, pass'.number < pass.number → ∀ n' c, ¬ Flaw text pass' n' c

theorem Checks.exists_blames {text : String} {pass : Pass} {α : Type}
    {x : Except AssemblyError α} {e : AssemblyError} (h : Checks text pass x) (he : x = .error e)
    (hbefore : ∀ pass' : Pass, pass'.number < pass.number → ∀ n c, ¬ Flaw text pass' n c) :
    ∃ pass n, Blames text e pass n := by
  obtain ⟨n, hline, hflaw, hfirst⟩ := h.error e he
  exact ⟨pass, n, hline, hflaw, hfirst, hbefore⟩

namespace Program

variable {text : String}

theorem exists_blames_of_assemble {e : AssemblyError} (h : assemble text = .error e) :
    ∃ pass n, Blames text e pass n := by
  rw [assemble_eq] at h
  -- a pass begins only where those before it have found nothing
  rcases bind_error_iff.mp h with h | ⟨source, hread, h⟩
  · refine (Source.checks_read text).exists_blames h fun pass' hlt => ?_
    cases pass' <;> exact absurd hlt (by decide)
  have hreading := (Source.checks_read text).ok source hread
  rcases bind_error_iff.mp h with h | ⟨statements, hbuild, h⟩
  · refine (checks_build hread).exists_blames h fun pass' hlt => ?_
    cases pass' with
    | reading => exact hreading
    | building | measuring | encoding => exact absurd hlt (by decide)
  have hbuilding := (checks_build hread).ok statements hbuild
  rcases bind_error_iff.mp h with h | ⟨lengths, hlengths, h⟩
  · refine (checks_lengths hread hbuild).exists_blames h fun pass' hlt => ?_
    cases pass' with
    | reading => exact hreading
    | building => exact hbuilding
    | measuring | encoding => exact absurd hlt (by decide)
  have hmeasuring := (checks_lengths hread hbuild).ok lengths hlengths
  rcases bind_error_iff.mp h with h | ⟨entries, -, h⟩
  · refine (checks_encode hread hbuild hlengths).exists_blames h fun pass' hlt => ?_
    cases pass' with
    | reading => exact hreading
    | building => exact hbuilding
    | measuring => exact hmeasuring
    | encoding => exact absurd hlt (by decide)
  · cases h

theorem exists_assemble_error_iff :
    (∃ e, assemble text = .error e) ↔ ∃ pass n c, Flaw text pass n c := by
  constructor
  · rintro ⟨e, he⟩
    obtain ⟨pass, n, hblames⟩ := exists_blames_of_assemble he
    exact ⟨pass, n, e.cause, hblames.flaw⟩
  · rintro ⟨pass, n, c, hflaw⟩
    cases h : assemble text with
    | ok p => exact absurd hflaw (not_flaw_of_assemble h pass n c)
    | error e => exact ⟨e, rfl⟩

end Program

/-- The flaws of a text, pass by pass. -/
theorem exists_flaw_iff {text : String} : (∃ pass n c, Flaw text pass n c) ↔
    (∃ cs n c, (cs, n) ∈ Source.numbered text ∧ Line.read cs = .error c) ∨
    (∃ body n c, (body, n) ∈ Source.bodies text ∧ Statement.ofBody body = .error c) ∨
    (∃ n i m, Source.Says text n (.instruction i) ∧ .mem m ∈ i.instr.operands ∧ ¬ m.Supported) ∨
    ∃ n i name, Source.Says text n (.instruction i) ∧ .label name ∈ i.instr.operands ∧
      ∀ m ∈ Source.marks text, m.name ≠ name := by
  constructor
  · rintro ⟨pass, n, c, h⟩
    cases h with
    | malformed hline hread => exact .inl ⟨_, n, c, hline, hread⟩
    | unbuilt hbody hbuild => exact .inr (.inl ⟨_, n, c, hbody, hbuild⟩)
    | unsupported hsaid hmem hm _ => exact .inr (.inr (.inl ⟨n, _, _, hsaid, hmem, hm⟩))
    | undefined hsaid hlabel hname => exact .inr (.inr (.inr ⟨n, _, _, hsaid, hlabel, hname⟩))
  · rintro (⟨cs, n, c, hline, hread⟩ | ⟨body, n, c, hbody, hbuild⟩ | ⟨n, i, m, hsaid, hmem, hm⟩ |
      ⟨n, i, name, hsaid, hlabel, hname⟩)
    · exact ⟨_, n, c, .malformed hline hread⟩
    · exact ⟨_, n, c, .unbuilt hbody hbuild⟩
    · obtain ⟨x, hx⟩ := (MemRef.not_supported_iff (hsaid.wellFormed.isLong m hmem)).mp hm
      exact ⟨_, n, _, .unsupported hsaid hmem hm hx⟩
    · exact ⟨_, n, _, .undefined hsaid hlabel hname⟩

/-! ## Main result -/

/-- **A text fails exactly if something is wrong with it, and the right line is blamed.** It fails
exactly if a line cannot be read, a statement cannot be built, an address has no encoding, or a
label is nowhere in the text. The error has the number of a line, which has a flaw that is the
cause; no line before has a flaw that the same pass finds, and no line at all has one that a pass
before finds. -/
theorem assemble_blames (text : String) :
    ((∃ e, Program.assemble text = .error e) ↔
      (∃ cs n c, (cs, n) ∈ Source.numbered text ∧ Line.read cs = .error c) ∨
      (∃ body n c, (body, n) ∈ Source.bodies text ∧ Statement.ofBody body = .error c) ∨
      (∃ n i m, Source.Says text n (.instruction i) ∧ .mem m ∈ i.instr.operands ∧ ¬ m.Supported) ∨
      ∃ n i name, Source.Says text n (.instruction i) ∧ .label name ∈ i.instr.operands ∧
        ∀ m ∈ Source.marks text, m.name ≠ name) ∧
    ∀ e, Program.assemble text = .error e → ∃ pass n,
      (1 ≤ n ∧ n ≤ (Text.lines text.toList).length) ∧ Blames text e pass n := by
  constructor
  · rw [Program.exists_assemble_error_iff, exists_flaw_iff]
  · intro e he
    obtain ⟨pass, n, hblames⟩ := Program.exists_blames_of_assemble he
    exact ⟨pass, n, hblames.flaw.line_bounds, hblames⟩

/-- A label that is not defined on line 1, an address that has no encoding on line 2, and a register
that does not exist on line 3. -/
def threeFlaws : String := "jmp nowhere\nmov (%ebp), %eax\ninc %r8"

theorem assemble_threeFlaws :
    Program.assemble threeFlaws = .error ⟨.unknownRegister "r8", some 3⟩ := by
  decide +kernel

/-- Line 3 is blamed, since statements are built before any of them is measured. -/
theorem assemble_blames_threeFlaws :
    Flaw threeFlaws .building 3 (.unknownRegister "r8") ∧
      (∀ n' < 3, ∀ c, ¬ Flaw threeFlaws .building n' c) ∧
        ∀ n c, ¬ Flaw threeFlaws .reading n c := by
  obtain ⟨pass, n, -, hblames⟩ := (assemble_blames threeFlaws).2 _ assemble_threeFlaws
  obtain rfl : n = 3 := (Option.some.inj hblames.line).symm
  cases pass with
  | building => exact ⟨hblames.flaw, hblames.first, hblames.earliest .reading (by decide)⟩
  | reading =>
    cases hblames.flaw with
    | malformed _ hread => exact absurd (Line.read_raises _ _ hread) (by decide)
  | measuring | encoding => cases hblames.flaw

end Ia32
