import Ia32.Proofs.Instruction
import Ia32.Proofs.Stages

/-!
# Lengths that are foreseen

The lengths of statements are found before any of them is encoded.

* `Encoding.operandBytes`: the bytes of the operand of an encoding; `Encoding.length_ok_iff`,
  `Encoding.bytes_ok_iff`: lengths and bytes by their parts;
* `Encoding.bytes_length`: **code is as long as was foreseen**; `Encoding.bytes_error`: where the
  length is found, code is missing for a label only;
* `Layout.Defines`: the labels of a layout; `Instruction.WellFormed.length_iff`,
  `Instruction.WellFormed.bytes_iff`: the instructions that have a length, and those that have
  code;
* **`lengths_foreseen`**: all of it for every instruction and every directive, so that no text
  fails for a length.
-/

set_option autoImplicit false

namespace Ia32

/-! ## Labels of a layout -/

namespace Layout

variable {l : Layout} {name : String}

/-- A label that a layout knows. -/
def Defines (l : Layout) (name : String) : Prop := ∃ index, (name, index) ∈ l.symbols

theorem defines_iff : l.Defines name ↔ ∃ index, l.symbols.lookup name = some index := by
  constructor
  · rintro ⟨index, h⟩
    rw [← Option.isSome_iff_exists, List.lookup_isSome_iff]
    exact ⟨_, h, beq_self_eq_true name⟩
  · rintro ⟨index, h⟩
    exact ⟨index, mem_of_lookup h⟩

theorem resolve_ok_iff {a : Long} :
    l.resolve name = .ok a ↔
      ∃ index, l.symbols.lookup name = some index ∧ l.addressOf index = a := by
  unfold resolve
  cases h : l.symbols.lookup name with
  | none => exact ⟨nofun, nofun⟩
  | some index => simp

theorem exists_resolve_iff : (∃ a, l.resolve name = .ok a) ↔ l.Defines name := by
  simp only [defines_iff, resolve_ok_iff]
  constructor
  · rintro ⟨a, index, h, -⟩
    exact ⟨index, h⟩
  · rintro ⟨index, h⟩
    exact ⟨_, index, h, rfl⟩

theorem resolve_raises :
    Raises (fun c => ¬ l.Defines name ∧ c = .undefinedLabel name) (l.resolve name) := by
  intro c hc
  refine ⟨fun hd => ?_, ?_⟩
  · obtain ⟨a, ha⟩ := exists_resolve_iff.mpr hd
    cases ha.symm.trans hc
  · unfold resolve at hc
    split at hc
    · cases hc
    · exact (Except.error.inj hc).symm

end Layout

/-! ## Parts of an encoding -/

namespace Encoding

variable {e : Encoding} {layout : Layout} {index : Nat}

theorem operandBytes_some {op : Operand} {field : BitVec 3} {bs : List Byte}
    (he : e.operand = some (op, field)) :
    e.operandBytes = .ok bs ↔ ModRM.Encodes op field bs := by
  rw [operandBytes, he]
  exact encoded_ok_iff.trans ModRM.encode_ok_iff

theorem operandBytes_none {bs : List Byte} (he : e.operand = none) :
    e.operandBytes = .ok bs ↔ bs = [] := by
  rw [operandBytes, he]
  exact pure_ok_iff.trans eq_comm

theorem operandBytes_length_le {bs : List Byte} (h : e.operandBytes = .ok bs) :
    bs.length ≤ if e.operand.isSome then 2 else 0 := by
  rcases he : e.operand with _ | ⟨op, field⟩
  · rw [(operandBytes_none he).mp h]
    exact Nat.le_refl 0
  · exact ((operandBytes_some he).mp h).length_le

theorem length_bytesWith (e : Encoding) {operand trailer : List Byte}
    (h : trailer.length = e.trailer.length) :
    (e.bytesWith operand trailer).length = e.lengthWith operand.length := by
  unfold bytesWith lengthWith
  simp only [List.length_append, h]

theorem length_ok_iff {n : Nat} :
    e.length = .ok n ↔ ∃ bs, e.operandBytes = .ok bs ∧ e.lengthWith bs.length = n :=
  map_ok_iff

/-- **The bytes of an encoding** are those of its operand and its trailer, after its opcode. -/
theorem bytes_ok_iff {code : List Byte} :
    e.bytes layout index = .ok code ↔ ∃ bs trailer, e.operandBytes = .ok bs ∧
      trailerBytes layout ((layout.addressOf index).toNat + e.lengthWith bs.length : Nat)
        e.trailer = .ok trailer ∧ e.bytesWith bs trailer = code := by
  simp only [bytes, bind_ok_iff, pure_ok_iff, Int.natCast_add]
  exact exists_congr fun bs => exists_and_left.symm

theorem length_trailerBytes {next : Int} {t : Trailer} {bs : List Byte}
    (h : trailerBytes layout next t = .ok bs) : bs.length = t.length := by
  cases t with
  | none =>
    cases h
    rfl
  | imm w n =>
    cases h
    exact w.length_immediate n
  | target name =>
    obtain ⟨a, -, h⟩ := bind_ok_iff.mp h
    cases h
    exact Width.long.length_immediate _

/-- **Code is as long as was foreseen.** -/
theorem bytes_length {code : List Byte} (h : e.bytes layout index = .ok code) :
    e.length = .ok code.length := by
  obtain ⟨bs, trailer, hbs, ht, rfl⟩ := bytes_ok_iff.mp h
  exact length_ok_iff.mpr ⟨bs, hbs, (e.length_bytesWith (length_trailerBytes ht)).symm⟩

/-! ## Errors -/

theorem operandBytes_raises (e : Encoding) :
    Raises (fun c => ∃ x, c = .encoding x) e.operandBytes := by
  unfold operandBytes
  split
  · exact encoded_raises
  · exact .ok

theorem length_raises (e : Encoding) : Raises (fun c => ∃ x, c = .encoding x) e.length :=
  e.operandBytes_raises.map

theorem trailerBytes_raises (layout : Layout) (next : Int) (t : Trailer) :
    Raises (fun c => ∃ name, t = .target name ∧ ¬ layout.Defines name ∧ c = .undefinedLabel name)
      (trailerBytes layout next t) := by
  cases t with
  | none | imm w n => exact .ok
  | target name =>
    refine .bind (Layout.resolve_raises.mono fun c hc => ?_) fun _ _ => .ok
    exact ⟨name, rfl, hc⟩

theorem bytes_raises (e : Encoding) (layout : Layout) (index : Nat) :
    Raises (fun c => (∃ x, c = .encoding x) ∨
      ∃ name, e.trailer = .target name ∧ ¬ layout.Defines name ∧ c = .undefinedLabel name)
      (e.bytes layout index) := by
  refine .bind (e.operandBytes_raises.mono fun _ => .inl) fun _ _ => ?_
  exact .bind ((trailerBytes_raises _ _ _).mono fun _ => .inr) fun _ _ => .ok

theorem bytes_error {n : Nat} {c : Cause} (hn : e.length = .ok n)
    (hc : e.bytes layout index = .error c) :
    ∃ name, e.trailer = .target name ∧ ¬ layout.Defines name ∧ c = .undefinedLabel name := by
  obtain ⟨bs, hbs, -⟩ := length_ok_iff.mp hn
  rcases bind_error_iff.mp hc with hc | ⟨_, -, hc⟩
  · cases hbs.symm.trans hc
  rcases bind_error_iff.mp hc with hc | ⟨_, -, hc⟩
  · exact trailerBytes_raises _ _ _ c hc
  · cases hc

end Encoding

/-! ## Instructions -/

namespace Instruction.WellFormed

variable {i : Instruction} {e : Encoding} {layout : Layout} {index : Nat}

theorem exists_operandBytes_iff (h : i.WellFormed)
    (he : Encoding.Selects i.instr.width i.instr.mnemonic i.instr.operands e) :
    (∃ bs, e.operandBytes = .ok bs) ↔ ∀ m, .mem m ∈ i.instr.operands → m.Supported := by
  simp only [he.mem_mem_iff]
  rcases hop : e.operand with _ | ⟨op, field⟩
  · simp [Encoding.operandBytes_none hop]
  · obtain ⟨hmem, hrm⟩ := he.operand hop
    simp only [Encoding.operandBytes_some hop]
    rw [ModRM.exists_encodes_iff field hrm fun m hm => h.isLong m (hm ▸ hmem)]
    simp only [Option.some.injEq, Prod.mk.injEq, exists_eq_right']

theorem exists_trailerBytes_iff
    (he : Encoding.Selects i.instr.width i.instr.mnemonic i.instr.operands e) (next : Int) :
    (∃ bs, Encoding.trailerBytes layout next e.trailer = .ok bs) ↔
      ∀ name, .label name ∈ i.instr.operands → layout.Defines name := by
  simp only [he.label_mem_iff]
  cases e.trailer with
  | none | imm w n => exact ⟨fun _ => nofun, fun _ => ⟨_, rfl⟩⟩
  | target name =>
    constructor
    · rintro ⟨bs, hbs⟩ _ ⟨⟩
      obtain ⟨a, ha, -⟩ := bind_ok_iff.mp hbs
      exact Layout.exists_resolve_iff.mp ⟨a, ha⟩
    · intro hd
      obtain ⟨a, ha⟩ := Layout.exists_resolve_iff.mpr (hd name rfl)
      exact ⟨_, bind_ok_iff.mpr ⟨a, ha, rfl⟩⟩

/-- **The instructions that have a length** are those whose addresses have an encoding. -/
theorem length_iff (h : i.WellFormed) :
    (∃ n, i.length = .ok n) ↔ ∀ m, .mem m ∈ i.instr.operands → m.Supported := by
  obtain ⟨e, he⟩ := h.selects
  rw [← h.exists_operandBytes_iff he, he.length_eq]
  simp only [Encoding.length_ok_iff]
  constructor
  · rintro ⟨n, bs, hbs, -⟩
    exact ⟨bs, hbs⟩
  · rintro ⟨bs, hbs⟩
    exact ⟨_, bs, hbs, rfl⟩

/-- A length is not found only if an address has no encoding. -/
theorem length_error (h : i.WellFormed) {c : Cause} (hc : i.length = .error c) :
    ∃ m x, .mem m ∈ i.instr.operands ∧ m.form = .error x ∧ c = .encoding x := by
  obtain ⟨e, he⟩ := h.selects
  rw [he.length_eq] at hc
  have hc : e.operandBytes = .error c := map_error_iff.mp hc
  unfold Encoding.operandBytes at hc
  rcases hop : e.operand with _ | ⟨op, field⟩
  · rw [hop] at hc
    cases hc
  · rw [hop] at hc
    obtain ⟨hmem, hrm⟩ := he.operand hop
    obtain ⟨x, hx, rfl⟩ := encoded_error_iff.mp hc
    cases op with
    | reg r => cases hx
    | mem m =>
      rcases bind_error_iff.mp hx with hx | ⟨_, -, hx⟩
      · exact ⟨m, x, hmem, hx, rfl⟩
      · cases hx
    | imm n | label name => cases hrm

/-- **The instructions that have code** have a length, and their label is defined. -/
theorem bytes_iff (h : i.WellFormed) :
    (∃ bs, i.bytes layout index = .ok bs) ↔
      (∀ m, .mem m ∈ i.instr.operands → m.Supported) ∧
        ∀ name, .label name ∈ i.instr.operands → layout.Defines name := by
  obtain ⟨e, he⟩ := h.selects
  rw [← h.exists_operandBytes_iff he, he.bytes_eq]
  simp only [Encoding.bytes_ok_iff]
  constructor
  · rintro ⟨_, bs, trailer, hbs, ht, -⟩
    exact ⟨⟨bs, hbs⟩, (exists_trailerBytes_iff he _).mp ⟨trailer, ht⟩⟩
  · rintro ⟨⟨bs, hbs⟩, hl⟩
    obtain ⟨trailer, ht⟩ := (exists_trailerBytes_iff he _).mpr hl
    exact ⟨_, bs, trailer, hbs, ht, rfl⟩

/-- **Code is as long as was foreseen**: by one function of the family, and written by another. -/
theorem bytes_length (h : i.WellFormed) {code : List Byte}
    (hcode : i.bytes layout index = .ok code) : i.length = .ok code.length := by
  obtain ⟨e, he⟩ := h.selects
  rw [he.bytes_eq] at hcode
  rw [he.length_eq]
  exact Encoding.bytes_length hcode

/-- An instruction takes one byte at least, and seven at most. -/
theorem length_bounds (h : i.WellFormed) {n : Nat} (hn : i.length = .ok n) : 1 ≤ n ∧ n ≤ 7 := by
  obtain ⟨e, he⟩ := h.selects
  rw [he.length_eq] at hn
  obtain ⟨bs, hbs, rfl⟩ := Encoding.length_ok_iff.mp hn
  have hparts := he.parts_le
  have hlen := Encoding.operandBytes_length_le hbs
  have hopcode : 1 ≤ e.opcode.bytes.length := by
    rcases e.opcode.bytes_cases with ⟨b, hb, -⟩ | ⟨b, hb⟩ <;> rw [hb] <;> simp
  unfold Encoding.lengthWith
  omega

theorem length_raises (h : i.WellFormed) : Raises (fun c => ∃ x, c = .encoding x) i.length := by
  obtain ⟨e, he⟩ := h.selects
  rw [he.length_eq]
  exact e.length_raises

theorem bytes_raises (h : i.WellFormed) (layout : Layout) (index : Nat) :
    Raises (fun c => (∃ x, c = .encoding x) ∨ ∃ name, .label name ∈ i.instr.operands ∧
      ¬ layout.Defines name ∧ c = .undefinedLabel name) (i.bytes layout index) := by
  obtain ⟨e, he⟩ := h.selects
  rw [he.bytes_eq]
  simp only [he.label_mem_iff]
  exact e.bytes_raises layout index

theorem bytes_error (h : i.WellFormed) {n : Nat} {c : Cause} (hn : i.length = .ok n)
    (hc : i.bytes layout index = .error c) :
    ∃ name, .label name ∈ i.instr.operands ∧ ¬ layout.Defines name ∧ c = .undefinedLabel name := by
  obtain ⟨e, he⟩ := h.selects
  rw [he.length_eq] at hn
  rw [he.bytes_eq] at hc
  simp only [he.label_mem_iff]
  exact Encoding.bytes_error hn hc

end Instruction.WellFormed

/-! ## Directives -/

namespace Directive

/-- **The directives that there are** have a known name and values, all of the right size. -/
theorem ofValues_ok_iff {name : String} {values : List Int} {d : Directive} :
    ofValues name values = .ok d ↔ ∃ w, table.lookup name = some w ∧ values ≠ [] ∧
      (∀ v ∈ values, 0 ≤ v ∧ v < 2 ^ w.bits) ∧ ⟨name, w, values⟩ = d := by
  unfold ofValues
  split
  · next w hw =>
    refine guard_ok_iff.trans ?_
    split
    · next v hfind =>
      have hv : ¬ w.fits v = true := by simpa using List.find?_some hfind
      rw [Width.fits_iff] at hv
      constructor
      · rintro ⟨-, h⟩
        cases h
      · rintro ⟨w', hw', -, hall, -⟩
        cases hw.symm.trans hw'
        exact absurd (hall v (List.mem_of_find?_eq_some hfind)) hv
    · next hfind =>
      have hall : ∀ v ∈ values, 0 ≤ v ∧ v < 2 ^ w.bits := by
        simpa [← Width.fits_iff] using hfind
      rw [pure_ok_iff, List.isEmpty_iff]
      constructor
      · rintro ⟨hne, rfl⟩
        exact ⟨w, hw, hne, hall, rfl⟩
      · rintro ⟨w', hw', hne, -, rfl⟩
        cases hw.symm.trans hw'
        exact ⟨hne, rfl⟩
  · next hw =>
    constructor
    · nofun
    · rintro ⟨w, hw', -⟩
      exact absurd hw' (hw w)

theorem length_bytes (d : Directive) : d.bytes.length = d.length := by
  unfold bytes length
  rw [List.length_flatMap]
  simp [Nat.mul_comm]

theorem length_pos {name : String} {values : List Int} {d : Directive}
    (h : ofValues name values = .ok d) : 1 ≤ d.length := by
  obtain ⟨w, -, hne, -, rfl⟩ := ofValues_ok_iff.mp h
  exact Nat.mul_pos w.bytes_pos (List.length_pos_iff.mpr hne)

end Directive

/-! ## Statements -/

namespace Statement

/-- What holds of every statement of a program. -/
def WellFormed : Statement → Prop
  | instruction i => i.WellFormed
  | directive _ => True

theorem wellFormed_of_ofBody {body : RawBody} {s : Statement} (h : ofBody body = .ok s) :
    s.WellFormed := by
  cases s with
  | instruction i => exact Instruction.wellFormed_of_ofBody h
  | directive d => trivial

variable {s : Statement}

theorem WellFormed.bytes_length (hs : s.WellFormed) {layout : Layout} {index : Nat}
    {code : List Byte} (h : s.bytes layout index = .ok code) : s.length = .ok code.length := by
  cases s with
  | instruction i => exact Instruction.WellFormed.bytes_length hs h
  | directive d =>
    cases h
    rw [length, d.length_bytes]

theorem WellFormed.length_raises (hs : s.WellFormed) :
    Raises (·.stage = .encoding) s.length := by
  cases s with
  | instruction i =>
    refine (Instruction.WellFormed.length_raises hs).mono ?_
    rintro _ ⟨x, rfl⟩
    rfl
  | directive d => exact .ok

theorem WellFormed.bytes_raises (hs : s.WellFormed) (layout : Layout) (index : Nat) :
    Raises (·.stage = .encoding) (s.bytes layout index) := by
  cases s with
  | instruction i =>
    refine (Instruction.WellFormed.bytes_raises hs layout index).mono ?_
    rintro _ (⟨x, rfl⟩ | ⟨name, -, -, rfl⟩) <;> rfl
  | directive d => exact .ok

/-- **A statement takes one byte at least.** -/
theorem length_pos {body : RawBody} {s : Statement} {n : Nat} (hs : ofBody body = .ok s)
    (hn : s.length = .ok n) : 1 ≤ n := by
  cases body with
  | instruction operator raw =>
    obtain ⟨i, hi, rfl⟩ := map_ok_iff.mp hs
    exact ((Instruction.ofRaw_wellFormed hi).length_bounds hn).1
  | directive name values =>
    obtain ⟨d, hd, rfl⟩ := map_ok_iff.mp hs
    cases hn
    exact Directive.length_pos hd

end Statement

/-! ## Programs -/

/-- The labels of definitions, those of a layout without its lengths. -/
def Symbols.ofDefinitions (defs : List Definition) : Symbols :=
  defs.foldl (fun symbols d => symbols.define d.name d.index) []

theorem Layout.foldl_define (l : Layout) (defs : List Definition) :
    defs.foldl (fun l d => l.define d.name d.index) l =
      { l with symbols := defs.foldl (fun symbols d => symbols.define d.name d.index) l.symbols } :=
    by
  induction defs generalizing l with
  | nil => rfl
  | cons d ds ih =>
    rw [List.foldl_cons, ih]
    rfl

theorem Layout.ofDefinitions_eq (defs : List Definition) :
    ofDefinitions defs = ⟨Symbols.ofDefinitions defs, []⟩ :=
  foldl_define {} defs

namespace Program

variable {layout : Layout} {index : Nat}

/-- The lengths of statements, each found for itself. -/
def lengths (statements : List (Statement × Nat)) : Except AssemblyError (List Nat) :=
  statements.mapM fun (s, line) => onLine line s.length

theorem lengths_ok_iff {statements : List (Statement × Nat)} {lengths : List Nat} :
    Program.lengths statements = .ok lengths ↔
      List.Forall₂ (fun s n => s.1.length = .ok n) statements lengths := by
  unfold Program.lengths
  simp only [mapM_ok_iff, onLine_ok_iff]

theorem lengths_cons (s : Statement) (line : Nat) (rest : List (Statement × Nat)) :
    lengths ((s, line) :: rest) =
      onLine line s.length >>= fun n => lengths rest >>= fun ns => pure (n :: ns) :=
  List.mapM_cons

/-- **Room is made** for all statements, as long as each of them is. -/
theorem reserve_eq (layout : Layout) (statements : List (Statement × Nat)) :
    reserve layout statements =
      (fun ns => { layout with lengths := layout.lengths ++ ns }) <$> lengths statements := by
  induction statements generalizing layout with
  | nil => simp [reserve, lengths, pure, Except.pure]
  | cons s rest ih =>
    obtain ⟨s, line⟩ := s
    rw [reserve, lengths_cons]
    cases onLine line s.length with
    | error e => rfl
    | ok n =>
      change reserve (layout.push n) rest = _ <$> (lengths rest >>= fun ns => pure (n :: ns))
      rw [ih]
      cases lengths rest with
      | error e => rfl
      | ok ns => simp [Layout.push, pure, Except.pure, bind, Except.bind]

/-- **A text is assembled** in a layout of its labels and the lengths of its statements. -/
theorem assemble_eq (text : String) : assemble text = (do
    let source ← Source.read text
    let statements ← build source.statements
    let lengths ← lengths statements
    let layout : Layout := ⟨Symbols.ofDefinitions source.definitions, lengths⟩
    let entries ← encode layout 0 statements
    return ⟨text, entries, layout, redefinitions [] source.definitions⟩) := by
  unfold assemble
  simp only [Layout.ofDefinitions_eq, reserve_eq, bind_map_left, List.nil_append]

theorem build_ok {raw : List RawStatement} {statements : List (Statement × Nat)}
    (h : build raw = .ok statements) :
    ∀ s ∈ statements, ∃ body, Statement.ofBody body = .ok s.1 := by
  intro s hs
  obtain ⟨r, -, hr⟩ := exists_of_mapM_ok h hs
  obtain ⟨statement, hstatement, hr⟩ := bind_ok_iff.mp hr
  cases hr
  exact ⟨r.body, onLine_ok_iff.mp hstatement⟩

theorem build_wellFormed {raw : List RawStatement} {statements : List (Statement × Nat)}
    (h : build raw = .ok statements) : ∀ s ∈ statements, s.1.WellFormed := by
  intro s hs
  obtain ⟨body, hbody⟩ := build_ok h s hs
  exact Statement.wellFormed_of_ofBody hbody

theorem lengths_raises {statements : List (Statement × Nat)}
    (h : ∀ s ∈ statements, s.1.WellFormed) :
    Raises (·.cause.stage = .encoding) (lengths statements) :=
  .mapM fun s hs => (h s hs).length_raises.onLine

/-- A statement whose length was foreseen fails only if it has no code. -/
theorem encodeEntry_error_iff {s : Statement} {n line : Nat} {e : AssemblyError}
    (hwf : s.WellFormed) (hs : s.length = .ok n) (hn : layout.lengths[index]? = some n) :
    encodeEntry layout index s line = .error e ↔
      s.bytes layout index = .error e.cause ∧ e.line = some line := by
  have hsame : ∀ code, s.bytes layout index = .ok code →
      ¬ code.length ≠ layout.lengths[index]?.getD 0 := by
    intro code hcode
    have hlen : n = code.length := Except.ok.inj (hs.symm.trans (hwf.bytes_length hcode))
    rw [hn, Option.getD_some, hlen]
    exact not_not.mpr rfl
  rw [← onLine_error_iff]
  refine bind_error_iff.trans ⟨?_, .inl⟩
  rintro (h | ⟨code, hcode, h⟩)
  · exact h
  · rw [if_neg (hsame code (onLine_ok_iff.mp hcode))] at h
    cases h

theorem encodeEntry_raises {s : Statement} {n : Nat} (hwf : s.WellFormed) (hs : s.length = .ok n)
    (hn : layout.lengths[index]? = some n) (line : Nat) :
    Raises (·.cause.stage = .encoding) (encodeEntry layout index s line) :=
  fun e he => hwf.bytes_raises layout index e.cause ((encodeEntry_error_iff hwf hs hn).mp he).1

theorem encode_raises {statements : List (Statement × Nat)} {lengths : List Nat}
    (hwf : ∀ s ∈ statements, s.1.WellFormed)
    (h : List.Forall₂ (fun s n => s.1.length = .ok n) statements lengths)
    (hdrop : layout.lengths.drop index = lengths) :
    Raises (·.cause.stage = .encoding) (encode layout index statements) := by
  -- the induction is on the statements that are left, whose lengths are the last of the layout
  induction h generalizing index with
  | nil => exact .ok
  | @cons s n statements lengths hs _ ih =>
    have hn : layout.lengths[index]? = some n := by
      rw [← List.head?_drop, hdrop, List.head?_cons]
    have hrest : layout.lengths.drop (index + 1) = lengths := by
      rw [← List.tail_drop, hdrop, List.tail_cons]
    obtain ⟨hfirst, hwf⟩ := List.forall_mem_cons.mp hwf
    refine .bind (encodeEntry_raises hfirst hs hn s.2) fun _ _ => ?_
    exact .bind (ih hwf hrest) fun _ _ => .ok

/-- **No code differs in length from what was foreseen.** -/
theorem assemble_raises (text : String) :
    Raises (·.cause.stage ≠ .checking) (assemble text) := by
  rw [assemble_eq]
  have hstage : ∀ (stage : Stage) (e : AssemblyError), e.cause.stage = stage → stage ≠ .checking →
      e.cause.stage ≠ .checking := fun _ _ h hne => h ▸ hne
  refine .bind ((Source.read_raises text).mono fun e he => hstage _ e he nofun) fun source _ => ?_
  refine .bind ((build_raises _).mono fun e he => hstage _ e he nofun) fun statements hbuild => ?_
  have hwf := build_wellFormed hbuild
  refine .bind ((lengths_raises hwf).mono fun e he => hstage _ e he nofun) fun lengths h => ?_
  refine .bind ?_ fun _ _ => .ok
  exact (encode_raises hwf (lengths_ok_iff.mp h) rfl).mono fun e he => hstage _ e he nofun

end Program

/-! ## All statements -/

/-- **Lengths are foreseen, and nothing else goes wrong.** An instruction that is built has a
length exactly if its addresses have an encoding, and code exactly if its label is defined as well;
the code has the length that was foreseen, of one byte to seven. There are no other errors than
that an operand has no encoding and that a label is not defined. The data of a directive have the
length that was foreseen, too; so no text fails because lengths differ. -/
theorem lengths_foreseen :
    (∀ operator raw i, Instruction.ofRaw operator raw = .ok i → ∀ (layout : Layout) (index : Nat),
      ((∃ n, i.length = .ok n) ↔ ∀ m, .mem m ∈ i.instr.operands → m.Supported) ∧
      ((∃ code, i.bytes layout index = .ok code) ↔
        (∀ m, .mem m ∈ i.instr.operands → m.Supported) ∧
          ∀ name, .label name ∈ i.instr.operands → layout.Defines name) ∧
      (∀ code, i.bytes layout index = .ok code → i.length = .ok code.length) ∧
      (∀ n, i.length = .ok n → 1 ≤ n ∧ n ≤ 7) ∧
      (∀ c, i.length = .error c → c.kind = .assertion ∧ ∃ x, c = .encoding x) ∧
      ∀ c, i.bytes layout index = .error c →
        (c.kind = .assertion ∧ ∃ x, c = .encoding x) ∨
        c.kind = .invalidLabel ∧ ∃ name, .label name ∈ i.instr.operands ∧ ¬ layout.Defines name ∧
          c = .undefinedLabel name) ∧
    (∀ d : Directive, d.bytes.length = d.length) ∧
    ∀ text e, Program.assemble text = .error e → ∀ s a b, e.cause ≠ .lengthDiffers s a b := by
  refine ⟨fun operator raw i hi layout index => ?_, Directive.length_bytes, ?_⟩
  · have hwf := Instruction.ofRaw_wellFormed hi
    refine ⟨hwf.length_iff, hwf.bytes_iff, fun code => hwf.bytes_length,
      fun n => hwf.length_bounds, fun c hc => ?_, fun c hc => ?_⟩
    · obtain ⟨x, rfl⟩ := hwf.length_raises c hc
      exact ⟨rfl, x, rfl⟩
    · rcases hwf.bytes_raises layout index c hc with ⟨x, rfl⟩ | ⟨name, hlabel, hd, rfl⟩
      · exact .inl ⟨rfl, x, rfl⟩
      · exact .inr ⟨rfl, name, hlabel, hd, rfl⟩
  · intro text e he s a b hc
    have hstage : e.cause.stage ≠ .checking := Program.assemble_raises text e he
    rw [hc] at hstage
    exact hstage rfl

/-- `movb $5, (%esp)` is built, has a length, and has code of that length in every layout. -/
theorem lengths_foreseen_movb :
    ∃ i, Instruction.ofRaw "movb" [.imm 5, .mem (some "esp") 0 none none] = .ok i ∧
      (∃ n, i.length = .ok n) ∧
      ∀ layout index, ∃ code, i.bytes layout index = .ok code ∧ code.length = 4 := by
  have hi : Instruction.ofRaw "movb" [.imm 5, .mem (some "esp") 0 none none] = .ok
      ⟨"movb", ⟨.mov, .byte, [.imm 5, .mem { base := some .esp }]⟩⟩ := by
    decide +kernel
  have hsupported : ∀ m, .mem m ∈ [Operand.imm 5, .mem { base := some .esp }] → m.Supported := by
    intro m hm
    obtain rfl : m = { base := some .esp } := by simpa using hm
    exact ⟨rfl, ⟨.esp, rfl, rfl, by decide⟩, nofun⟩
  refine ⟨_, hi, (lengths_foreseen.1 _ _ _ hi ⟨[], []⟩ 0).1.mpr hsupported, fun layout index => ?_⟩
  obtain ⟨-, hbytes, hlength, -⟩ := lengths_foreseen.1 _ _ _ hi layout index
  obtain ⟨code, hcode⟩ := hbytes.mpr ⟨hsupported, by simp⟩
  have hlen := hlength code hcode
  exact ⟨code, hcode, (Except.ok.inj hlen).symm⟩

end Ia32
