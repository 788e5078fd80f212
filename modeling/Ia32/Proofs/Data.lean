import Ia32.Proofs.Metadata
import Ia32.Proofs.Watched

/-!
# Data of a program

* `Directive.ofValues_eq_ok_iff`: the directives that there are, each with its width;
* `Directive.LiesAt`: the data of a directive, value after value in memory;
* `Program.Assembled.liesAt`: data lie where their directive starts, once the program is loaded;
* `Program.Carries`: a program has the data of a directive;
* **`Program.data_read_back`**: the data of every text that is assembled are read back as they were
  written.
-/

set_option autoImplicit false

namespace Ia32

/-! ## Directives -/

namespace Directive

/-- **The directives that there are**: bytes, words by two names, and longs, of which there must be
some, all within their width. -/
theorem ofValues_eq_ok_iff {name : String} {values : List Int} {d : Directive} :
    ofValues name values = .ok d ↔ ∃ w : Width,
      (name, w) ∈ [(".byte", .byte), (".value", .word), (".word", .word), (".long", .long)] ∧
      values ≠ [] ∧ (∀ v ∈ values, 0 ≤ v ∧ v < 2 ^ (8 * w.bytes)) ∧ d = ⟨name, w, values⟩ := by
  rw [ofValues_ok_iff]
  refine exists_congr fun w => ?_
  rw [lookup_iff_mem (by decide), eq_comm (a := d)]
  exact Iff.rfl

/-- The values of a directive lie in memory one after the other, as they are written. -/
def LiesAt (d : Directive) (mem : Memory) (address : Long) : Prop :=
  ∀ k v, d.values[k]? = some v → ∃ x : Long,
    mem.read (address + BitVec.ofNat 32 (k * d.width.bytes)) d.width = .ok x ∧ (x.toNat : Int) = v

theorem liesAt_of_holds {d : Directive} {mem : Memory} {address : Long}
    (hvalues : ∀ v ∈ d.values, 0 ≤ v ∧ v < 2 ^ d.width.bits)
    (h : mem.Holds d.width address (d.values.map d.width.truncate)) : d.LiesAt mem address := by
  intro k v hk
  obtain ⟨h0, hlt⟩ := hvalues v (List.mem_of_getElem? hk)
  refine ⟨d.width.truncate v, h k _ (by rw [List.getElem?_map, hk, Option.map_some]), ?_⟩
  rw [Width.toNat_truncate, Int.emod_eq_of_lt h0 hlt]

end Directive

theorem Statement.body_of_directive {body : RawBody} {d : Directive}
    (h : ofBody body = .ok (.directive d)) :
    body = .directive d.name d.values ∧ Directive.ofValues d.name d.values = .ok d := by
  cases body with
  | instruction operator raw =>
    obtain ⟨i, -, hi⟩ := map_ok_iff.mp h
    cases hi
  | directive name values =>
    obtain ⟨d', hvalues, hd⟩ := map_ok_iff.mp h
    cases hd
    obtain ⟨w, -, -, -, rfl⟩ := Directive.ofValues_ok_iff.mp hvalues
    exact ⟨rfl, hvalues⟩

/-! ## Programs -/

namespace Program

variable {p : Program} {k : Nat} {e : Entry} {d : Directive}

namespace Assembled

theorem ofValues (h : p.Assembled) (hk : p.entries[k]? = some e)
    (hd : e.statement = .directive d) : Directive.ofValues d.name d.values = .ok d := by
  obtain ⟨body, hbody⟩ := h.built e (List.mem_of_getElem? hk)
  exact (Statement.body_of_directive (hd ▸ hbody)).2

theorem directive_bytes (h : p.Assembled) (hk : p.entries[k]? = some e)
    (hd : e.statement = .directive d) : e.code = d.bytes := by
  have hbytes := h.bytes k e hk
  rw [hd] at hbytes
  exact (Except.ok.inj hbytes).symm

/-- **Data lie where their directive starts**, once the program is loaded. -/
theorem liesAt (h : p.Assembled) (hk : p.entries[k]? = some e)
    (hd : e.statement = .directive d) {pc pc' : Pc} {load offset : Long}
    (hload : pc.load p.code load offset = .ok pc') :
    d.LiesAt pc'.machine.memory (load + p.layout.addressOf k) := by
  have hloaded := Pc.loaded_of_load hload
  have hfits := hloaded.fits
  have hsize := pc.memorySize.isLt
  obtain ⟨w, -, -, hvalues, hw⟩ := Directive.ofValues_ok_iff.mp (h.ofValues hk hd)
  obtain rfl : w = d.width := congrArg Directive.width hw
  refine Directive.liesAt_of_holds hvalues ?_
  obtain ⟨rest, hdrop⟩ := h.drop_code hk
  rw [h.directive_bytes hk hd] at hdrop
  exact Memory.holds_of_window (hloaded.size.trans_lt hsize) (hloaded.size ▸ hfits) hloaded.code
    hdrop (h.toNat_add_addressOf (hfits.trans_lt hsize) k)

end Assembled

/-- A program carries a directive of its text: as many bytes as its values take together, which are
found from its address on, once the program is loaded, whatever the machine was before. -/
structure Carries (p : Program) (text : String) (k : Nat) (d : Directive) : Prop where
  written : ∃ line, (Source.bodies text)[k]? = some (.directive d.name d.values, line)
  length : p.layout.lengths[k]? = some (d.values.length * d.width.bytes)
  code : ∃ e, p.entries[k]? = some e ∧ e.code.length = d.values.length * d.width.bytes
  loaded : ∃ start, p.layout.starts[k]? = some start ∧
    ∀ (pc pc' : Pc) (load offset : Long), pc.load p.code load offset = .ok pc' →
      d.LiesAt pc'.machine.memory (load + start)

theorem carries {text : String} (hp : assemble text = .ok p) (hk : p.entries[k]? = some e)
    (hd : e.statement = .directive d) : p.Carries text k d := by
  have h := assemble_assembled hp
  obtain ⟨hlt, hget⟩ := List.getElem?_eq_some_iff.mp hk
  have hlt' : k < (Source.bodies text).length := by rwa [length_bodies hp]
  have hlength : e.code.length = d.values.length * d.width.bytes := by
    rw [h.directive_bytes hk hd, d.length_bytes, Directive.length, Nat.mul_comm]
  refine ⟨⟨(Source.bodies text)[k].2, ?_⟩, ?_, ⟨e, hk, hlength⟩, p.layout.addressOf k,
    p.layout.starts_getElem? (h.length_lengths ▸ hlt),
    fun pc pc' load offset hload => h.liesAt hk hd hload⟩
  · have hbody := ((forall₂_bodies hp).get hlt' hlt).1
    rw [List.get_eq_getElem, List.get_eq_getElem, hget, hd] at hbody
    rw [List.getElem?_eq_getElem hlt', ← (Statement.body_of_directive hbody).1]
  · rw [h.lengths_getElem? hk, hlength]

/-! ## Main result -/

/-- **Data are read back as they were written.** Every directive of a program is one of its text,
takes as many bytes as its values together, and its values are found from its address on, once the
program is loaded. A directive is accepted if and only if there is one of its name, it has values,
and all of them are within its width. -/
theorem data_read_back :
    (∀ (text : String) (p : Program), assemble text = .ok p →
      ∀ (k : Nat) (e : Entry) (d : Directive), p.entries[k]? = some e →
        e.statement = .directive d → p.Carries text k d) ∧
    ∀ (name : String) (values : List Int) (d : Directive),
      Directive.ofValues name values = .ok d ↔ ∃ w : Width,
        (name, w) ∈ [(".byte", .byte), (".value", .word), (".word", .word), (".long", .long)] ∧
        values ≠ [] ∧ (∀ v ∈ values, 0 ≤ v ∧ v < 2 ^ (8 * w.bytes)) ∧ d = ⟨name, w, values⟩ :=
  ⟨fun _ _ hp _ _ _ hk hd => carries hp hk hd, fun _ _ _ => Directive.ofValues_eq_ok_iff⟩

/-- Words and a byte around an instruction. -/
def dataAround : Program where
  text := ".value 1, 0xBEEF\nnop\nlast: .byte 7"
  entries := [⟨.directive ⟨".value", .word, [1, 0xBEEF]⟩, 1, [1, 0, 0xEF, 0xBE]⟩,
    ⟨.instruction ⟨"nop", ⟨.plain .nop, .long, []⟩⟩, 2, [0x90]⟩,
    ⟨.directive ⟨".byte", .byte, [7]⟩, 3, [7]⟩]
  layout := ⟨[("last", 2)], [4, 1, 1]⟩
  warnings := []

theorem assemble_dataAround : assemble dataAround.text = .ok dataAround := by
  decide +kernel

/-- The last byte of the program is found behind the instruction. -/
theorem data_read_back_dataAround :
    ∃ pc, (Pc.new 64).load dataAround.code 8 0 = .ok pc ∧
      ∃ start x, dataAround.layout.starts[2]? = some start ∧
        pc.machine.memory.read (8 + start) .byte = .ok x ∧ (x.toNat : Int) = 7 := by
  obtain ⟨pc, hload⟩ : ∃ pc, (Pc.new 64).load dataAround.code 8 0 = .ok pc := by
    rw [Pc.load_eq, if_neg (by decide +kernel)]
    exact ⟨_, rfl⟩
  have hcarries := data_read_back.1 _ _ assemble_dataAround 2 _ _ rfl rfl
  obtain ⟨start, hstart, hlies⟩ := hcarries.loaded
  obtain ⟨x, hread, hx⟩ := hlies (Pc.new 64) pc 8 0 hload 0 7 rfl
  refine ⟨pc, hload, start, x, hstart, ?_, hx⟩
  simpa using hread

end Program

end Ia32
