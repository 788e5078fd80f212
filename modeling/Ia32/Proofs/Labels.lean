import Ia32.Proofs.Outline

/-!
# Labels and what they name

* `Outline.mem_definitions_iff`, `Outline.mem_definitions_le`: the indices that the labels of an
  outline name;
* `Symbols.names`, `Symbols.nodup_names_ofPairs`: a label is listed once, however often it is
  defined; `Symbols.labelsAt`: the labels of an index;
* **`Symbols.names_ofPairs`**, **`Symbols.lookup_ofPairs_eq_findRev?`**: labels are listed in the
  order of their first definitions and name what the last ones say;
* `Symbols.lookup_ofPairs`: labels that are defined with one index each name these;
* `Outline.Assembles.lookup_le`: a label names a statement or the end;
* **`Statement.WellFormed.bytes_congr`**: code depends on the distance to a label only.
-/

set_option autoImplicit false

namespace Ia32

/-! ## Definitions -/

theorem mem_labelsFrom_iff {i : Nat} {ss : List (List String × RawBody)} {d : String × Nat} :
    d ∈ labelsFrom i ss ↔ ∃ k s, ss[k]? = some s ∧ d.1 ∈ s.1 ∧ d.2 = i + k := by
  induction ss generalizing i with
  | nil => simp [labelsFrom]
  | cons s ss ih =>
    rw [labelsFrom, List.mem_append, ih]
    constructor
    · rintro (h | ⟨k, t, ht, hname, hindex⟩)
      · obtain ⟨name, hname, rfl⟩ := List.mem_map.mp h
        exact ⟨0, s, rfl, hname, rfl⟩
      · exact ⟨k + 1, t, ht, hname, by omega⟩
    · rintro ⟨k, t, ht, hname, hindex⟩
      cases k with
      | zero =>
        cases ht
        exact .inl (List.mem_map.mpr ⟨d.1, hname, Prod.ext rfl hindex.symm⟩)
      | succ k => exact .inr ⟨k, t, ht, hname, by omega⟩

namespace Outline

variable {o : Outline} {d : String × Nat}

/-- **A label of an outline** stands in front of the statement that it names, or after the last. -/
theorem mem_definitions_iff : d ∈ o.definitions ↔
    (∃ s, o.statements[d.2]? = some s ∧ d.1 ∈ s.1) ∨
      d.1 ∈ o.trailing ∧ d.2 = o.statements.length := by
  rw [definitions, List.mem_append, mem_labelsFrom_iff, List.mem_map]
  constructor
  · rintro (⟨k, s, hs, hname, hindex⟩ | ⟨name, hname, rfl⟩)
    · rw [Nat.zero_add] at hindex
      exact .inl ⟨s, by rwa [hindex], hname⟩
    · exact .inr ⟨hname, rfl⟩
  · rintro (⟨s, hs, hname⟩ | ⟨hname, hindex⟩)
    · exact .inl ⟨d.2, s, hs, hname, (Nat.zero_add _).symm⟩
    · exact .inr ⟨d.1, hname, Prod.ext rfl hindex.symm⟩

theorem mem_definitions_le (h : d ∈ o.definitions) : d.2 ≤ o.statements.length := by
  rcases mem_definitions_iff.mp h with ⟨s, hs, -⟩ | ⟨-, hindex⟩
  · exact (List.getElem?_eq_some_iff.mp hs).1.le
  · exact hindex.le

end Outline

/-! ## Tables of labels -/

namespace Symbols

/-- The labels that a list of labels has. -/
def names (symbols : List (String × Nat)) : List String := symbols.map Prod.fst

/-- The labels of an index, in the order of their first definitions. -/
def labelsAt (symbols : Symbols) (index : Nat) : List String :=
  names (symbols.filter fun s => s.2 == index)

theorem mem_define {s : String × Nat} {name : String} {i : Nat} {ss : Symbols}
    (h : s ∈ define name i ss) : s = (name, i) ∨ s ∈ ss := by
  induction ss with
  | nil => exact .inl (List.mem_singleton.mp h)
  | cons t ts ih =>
    unfold define at h
    split at h
    · rcases List.mem_cons.mp h with rfl | h
      · exact .inl rfl
      · exact .inr (List.mem_cons_of_mem _ h)
    · rcases List.mem_cons.mp h with rfl | h
      · exact .inr List.mem_cons_self
      · exact (ih h).imp_right (List.mem_cons_of_mem _)

theorem names_define (name : String) (i : Nat) (ss : Symbols) :
    names (define name i ss) = if name ∈ names ss then names ss else names ss ++ [name] := by
  induction ss with
  | nil => rfl
  | cons s ss ih =>
    have hnames : names (s :: ss) = s.1 :: names ss := rfl
    unfold define
    rw [hnames]
    by_cases heq : s.1 = name
    · rw [if_pos heq, if_pos (by simp [heq])]
      exact congrArg (· :: names ss) heq.symm
    · have hrest : names (s :: define name i ss) = s.1 :: names (define name i ss) := rfl
      rw [if_neg heq, hrest, ih]
      by_cases hmem : name ∈ names ss
      · rw [if_pos hmem, if_pos (List.mem_cons_of_mem _ hmem)]
      · rw [if_neg hmem, if_neg (by simp [Ne.symm heq, hmem]), List.cons_append]

theorem mem_names_define {x name : String} {i : Nat} {ss : Symbols} :
    x ∈ names (define name i ss) ↔ x = name ∨ x ∈ names ss := by
  rw [names_define]
  by_cases hmem : name ∈ names ss
  · rw [if_pos hmem]
    exact ⟨.inr, fun h => h.elim (fun heq => heq ▸ hmem) id⟩
  · rw [if_neg hmem, List.mem_append, List.mem_singleton, or_comm]

theorem nodup_names_define {name : String} {i : Nat} {ss : Symbols} (h : (names ss).Nodup) :
    (names (define name i ss)).Nodup := by
  rw [names_define]
  by_cases hmem : name ∈ names ss
  · rwa [if_pos hmem]
  · rw [if_neg hmem]
    rw [← List.concat_eq_append]
    exact h.concat hmem

theorem lookup_cons (x : String) (s : String × Nat) (ss : Symbols) :
    List.lookup x (s :: ss) = if x = s.1 then some s.2 else ss.lookup x := by
  rw [List.lookup_cons]
  by_cases hx : x = s.1
  · rw [if_pos hx, beq_iff_eq.mpr hx]
  · rw [if_neg hx, beq_eq_false_iff_ne.mpr hx]

theorem lookup_define (x name : String) (i : Nat) (ss : Symbols) :
    (define name i ss).lookup x = if x = name then some i else ss.lookup x := by
  induction ss with
  | nil => exact lookup_cons x (name, i) []
  | cons s ss ih =>
    unfold define
    by_cases heq : s.1 = name
    · rw [if_pos heq, lookup_cons, lookup_cons, heq]
      by_cases hx : x = name <;> simp [hx]
    · rw [if_neg heq, lookup_cons, lookup_cons, ih]
      by_cases hx : x = name
      · simp [hx, Ne.symm heq]
      · simp [hx]

theorem ofPairs_concat (ds : List (String × Nat)) (d : String × Nat) :
    ofPairs (ds ++ [d]) = (ofPairs ds).define d.1 d.2 := by
  rw [ofPairs, List.foldl_append]
  rfl

theorem mem_of_mem_ofPairs {s : String × Nat} {ds : List (String × Nat)} (h : s ∈ ofPairs ds) :
    s ∈ ds := by
  induction ds using List.reverseRecOn with
  | nil => cases h
  | append_singleton ds d ih =>
    rw [ofPairs_concat] at h
    rw [List.mem_append, List.mem_singleton]
    rcases mem_define h with rfl | h
    · exact .inr rfl
    · exact .inl (ih h)

theorem mem_names_ofPairs {x : String} {ds : List (String × Nat)} :
    x ∈ names (ofPairs ds) ↔ x ∈ names ds := by
  induction ds using List.reverseRecOn with
  | nil => exact Iff.rfl
  | append_singleton ds d ih =>
    rw [ofPairs_concat, mem_names_define, ih, names, names, List.map_append, List.mem_append,
      List.map_singleton, List.mem_singleton]
    tauto

/-- **A label is listed once**, however often it is defined. -/
theorem nodup_names_ofPairs (ds : List (String × Nat)) : (names (ofPairs ds)).Nodup := by
  induction ds using List.reverseRecOn with
  | nil => exact List.nodup_nil
  | append_singleton ds d ih =>
    rw [ofPairs_concat]
    exact nodup_names_define ih

/-- **Labels are listed in the order of their first definitions.** -/
theorem names_ofPairs (ds : List (String × Nat)) : names (ofPairs ds) = (names ds).eraseDups := by
  induction ds using List.reverseRecOn with
  | nil => rfl
  | append_singleton ds d ih =>
    have hnames : names (ds ++ [d]) = names ds ++ [d.1] := List.map_append
    rw [ofPairs_concat, names_define, ih, hnames, List.eraseDups_append]
    by_cases hmem : d.1 ∈ names ds
    · rw [if_pos (List.mem_eraseDups.mpr hmem)]
      simp [List.removeAll, hmem]
    · rw [if_neg (mt List.mem_eraseDups.mp hmem)]
      simp [List.removeAll, hmem, List.eraseDups_cons]

/-- **A label names what its last definition says.** -/
theorem lookup_ofPairs_eq_findRev? (ds : List (String × Nat)) (name : String) :
    (ofPairs ds).lookup name = (ds.findRev? fun d => d.1 == name).map Prod.snd := by
  rw [List.findRev?_eq_find?_reverse]
  induction ds using List.reverseRecOn with
  | nil => rfl
  | append_singleton ds d ih =>
    rw [ofPairs_concat, lookup_define, ih, List.reverse_concat]
    by_cases hd : name = d.1
    · rw [if_pos hd, List.find?_cons_of_pos (by simp [hd]), Option.map_some]
    · rw [if_neg hd, List.find?_cons_of_neg (by simp [Ne.symm hd])]

theorem not_mem_names_iff {ss : Symbols} {name : String} :
    name ∉ names ss ↔ ss.lookup name = none := by
  rw [List.lookup_eq_none_iff, names, List.mem_map, not_exists]
  refine forall_congr' fun s => ?_
  rw [not_and, bne_iff_ne]
  exact imp_congr_right fun _ => not_congr eq_comm

theorem mem_labelsAt {ss : Symbols} {name : String} {index : Nat} (h : (names ss).Nodup) :
    name ∈ ss.labelsAt index ↔ ss.lookup name = some index := by
  rw [lookup_iff_mem h, labelsAt, names, List.mem_map]
  constructor
  · rintro ⟨s, hs, rfl⟩
    obtain ⟨hs, hindex⟩ := List.mem_filter.mp hs
    rw [← eq_of_beq hindex]
    exact hs
  · intro hs
    exact ⟨(name, index), List.mem_filter.mpr ⟨hs, beq_self_eq_true index⟩, rfl⟩

/-- **Labels that are defined with one index each** name these. -/
theorem lookup_ofPairs {ds : List (String × Nat)} {f : String → Option Nat}
    (h : ∀ name index, (name, index) ∈ ds ↔ f name = some index) (name : String) :
    (ofPairs ds).lookup name = f name := by
  -- in whichever order they are defined, since no definition is another one's
  cases hname : (ofPairs ds).lookup name with
  | some index => exact ((h name index).mp (mem_of_mem_ofPairs (mem_of_lookup hname))).symm
  | none =>
    rw [← not_mem_names_iff, mem_names_ofPairs] at hname
    refine (Option.eq_none_iff_forall_ne_some.mpr fun index hindex => hname ?_).symm
    exact List.mem_map_of_mem (f := Prod.fst) ((h name index).mpr hindex)

end Symbols

theorem Layout.defines_iff_mem_names {l : Layout} {name : String} :
    l.Defines name ↔ name ∈ Symbols.names l.symbols := by
  unfold Defines Symbols.names
  simp

namespace Outline

variable {o : Outline} {l : Layout} {ps : List (Statement × List Byte)}

theorem Assembles.length_eq (h : o.Assembles l ps) : o.statements.length = ps.length :=
  h.built.length_eq

theorem Assembles.length_lengths (h : o.Assembles l ps) : l.lengths.length = ps.length := by
  rw [h.lengths, List.length_map]

theorem Assembles.nodup_names (h : o.Assembles l ps) : (Symbols.names l.symbols).Nodup := by
  rw [h.symbols]
  exact Symbols.nodup_names_ofPairs o.definitions

theorem Assembles.mem_definitions (h : o.Assembles l ps) {name : String} {index : Nat}
    (hname : l.symbols.lookup name = some index) : (name, index) ∈ o.definitions := by
  rw [h.symbols] at hname
  exact Symbols.mem_of_mem_ofPairs (mem_of_lookup hname)

theorem Assembles.lookup_le (h : o.Assembles l ps) {name : String} {index : Nat}
    (hname : l.symbols.lookup name = some index) : index ≤ ps.length := by
  rw [← h.length_eq]
  exact mem_definitions_le (h.mem_definitions hname)

end Outline

/-! ## Code -/

theorem long_truncate_distance (target start : Long) (n : Nat) :
    Width.long.truncate ((target.toNat : Int) - (start.toNat + n : Nat)) =
      target - start - BitVec.ofNat 32 n := by
  rw [Width.long_truncate]
  apply BitVec.eq_of_toNat_eq
  simp only [BitVec.toNat_ofInt, BitVec.toNat_sub, BitVec.toNat_ofNat]
  omega

/-- **Code depends on the distance to a label only**, and on nothing else of the layout. -/
theorem Statement.WellFormed.bytes_congr {s : Statement} (hwf : s.WellFormed) {l l' : Layout}
    {k k' : Nat} {code : List Byte}
    (h : ∀ name a, l.resolve name = .ok a →
      ∃ a', l'.resolve name = .ok a' ∧ a' - l'.addressOf k' = a - l.addressOf k)
    (hs : s.bytes l k = .ok code) : s.bytes l' k' = .ok code := by
  cases s with
  | directive d => exact hs
  | instruction i =>
    obtain ⟨e, he⟩ := Instruction.WellFormed.selects hwf
    change i.bytes l k = .ok code at hs
    change i.bytes l' k' = .ok code
    rw [he.bytes_eq] at hs ⊢
    obtain ⟨bs, trailer, hbs, ht, hcode⟩ := Encoding.bytes_ok_iff.mp hs
    refine Encoding.bytes_ok_iff.mpr ⟨bs, trailer, hbs, ?_, hcode⟩
    cases hi : e.trailer with
    | none | imm w n =>
      rw [hi] at ht
      exact ht
    | target name =>
      rw [hi] at ht
      obtain ⟨a, ha, ht⟩ := bind_ok_iff.mp ht
      obtain ⟨a', ha', hdistance⟩ := h name a ha
      refine bind_ok_iff.mpr ⟨a', ha', ?_⟩
      rw [← ht, Width.immediate, Width.immediate, long_truncate_distance, long_truncate_distance,
        hdistance]

end Ia32
