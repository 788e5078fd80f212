import Ia32.Proofs.Words
import Mathlib.Data.List.Infix

/-!
# Commas outside parentheses

* `depth`: how many parentheses are open after a text; `NestedOnce`: texts whose parentheses match
  and are not nested;
* `piecesFrom`: the pieces of a text between its commas at depth zero; `join_piecesFrom`: with the
  commas they are the text;
* **`splitTop_eq_some_iff`**: texts are cut into these pieces, if their parentheses match;
* `Enclosed`: texts whose commas are in parentheses; **`enclosed_piecesFrom`**: the pieces;
* **`operands_cut_exactly`**: the operands of a text, and when it has none.
-/

set_option autoImplicit false

namespace Ia32

/-! ## Depth -/

/-- How many parentheses are open after a text. -/
def depth (cs : List Char) : Int := cs.count '(' - cs.count ')'

@[simp]
theorem depth_nil : depth [] = 0 := rfl

theorem depth_append (cs ds : List Char) : depth (cs ++ ds) = depth cs + depth ds := by
  unfold depth
  rw [List.count_append, List.count_append]
  push_cast
  omega

theorem depth_cons (c : Char) (cs : List Char) : depth (c :: cs) = depth [c] + depth cs :=
  depth_append [c] cs

theorem depth_singleton (c : Char) :
    depth [c] = if c = '(' then 1 else if c = ')' then -1 else 0 := by
  unfold depth
  split_ifs with hopen hclose
  · rw [hopen]
    rfl
  · rw [hclose]
    rfl
  · rw [List.count_eq_zero.mpr (by simpa using Ne.symm hopen),
      List.count_eq_zero.mpr (by simpa using Ne.symm hclose)]
    rfl

theorem depth_of_blank {cs : List Char} (h : ∀ c ∈ cs, Text.isBlank c = true) : depth cs = 0 := by
  have hnot : ∀ c, Text.isBlank c = false → cs.count c = 0 := by
    refine fun c hc => List.count_eq_zero.mpr fun hmem => ?_
    rw [h c hmem] at hc
    cases hc
  rw [depth, hnot '(' (by decide), hnot ')' (by decide)]
  rfl

/-- A text that starts at a depth: parentheses are never more than one deep, and all are closed. -/
structure NestedOnce (d : Int) (cs : List Char) : Prop where
  within : ∀ p, p <+: cs → d + depth p = 0 ∨ d + depth p = 1
  closed : d + depth cs = 0

theorem nestedOnce_nil {d : Int} : NestedOnce d [] ↔ d = 0 := by
  constructor
  · intro h
    simpa using h.closed
  · rintro rfl
    refine ⟨fun p hp => ?_, rfl⟩
    rw [List.prefix_nil.mp hp]
    exact .inl rfl

theorem nestedOnce_cons {d : Int} {c : Char} {cs : List Char} :
    NestedOnce d (c :: cs) ↔ (d = 0 ∨ d = 1) ∧ NestedOnce (d + depth [c]) cs := by
  constructor
  · intro h
    refine ⟨by simpa using h.within [] (List.nil_prefix), fun p hp => ?_, ?_⟩
    · rw [add_assoc, ← depth_cons]
      exact h.within (c :: p) (List.cons_prefix_cons.mpr ⟨rfl, hp⟩)
    · rw [add_assoc, ← depth_cons]
      exact h.closed
  · rintro ⟨hd, h⟩
    refine ⟨fun p hp => ?_, ?_⟩
    · rcases List.prefix_cons_iff.mp hp with rfl | ⟨p, rfl, htail⟩
      · simpa using hd
      · rw [depth_cons, ← add_assoc]
        exact h.within p htail
    · rw [depth_cons, ← add_assoc]
      exact h.closed

theorem nestedOnce_zero_iff {cs : List Char} :
    NestedOnce 0 cs ↔ (∀ p, p <+: cs → depth p = 0 ∨ depth p = 1) ∧ depth cs = 0 := by
  constructor
  · intro h
    exact ⟨by simpa using h.within, by simpa using h.closed⟩
  · rintro ⟨hwithin, hclosed⟩
    exact ⟨by simpa using hwithin, by simpa using hclosed⟩

/-! ## Pieces -/

/-- The pieces of a text that starts at a depth, between the commas at depth zero: each character is
taken with the depth of what stands before it. -/
def piecesFrom (d : Int) (cs : List Char) : List (List Char) :=
  ((cs.zip (cs.inits.map fun p => d + depth p)).splitOn (',', 0)).map (List.map Prod.fst)

theorem zip_depths_cons (d : Int) (c : Char) (cs : List Char) :
    (c :: cs).zip ((c :: cs).inits.map fun p => d + depth p) =
      (c, d) :: cs.zip (cs.inits.map fun p => d + depth [c] + depth p) := by
  rw [List.inits_cons, List.map_cons, List.map_map, List.zip_cons_cons, depth_nil, add_zero]
  congr 3
  funext p
  rw [Function.comp_apply, depth_cons, add_assoc]

@[simp]
theorem piecesFrom_nil (d : Int) : piecesFrom d [] = [[]] := rfl

theorem piecesFrom_comma (cs : List Char) : piecesFrom 0 (',' :: cs) = [] :: piecesFrom 0 cs := by
  rw [piecesFrom, zip_depths_cons, List.splitOn_cons_eq_if_modifyHead, if_pos (by decide)]
  rfl

theorem piecesFrom_cons {d : Int} {c : Char} (h : d ≠ 0 ∨ c ≠ ',') (cs : List Char) :
    piecesFrom d (c :: cs) = consFirst c (piecesFrom (d + depth [c]) cs) := by
  have hne : ((c, d) == (',', (0 : Int))) = false := by
    rw [beq_eq_false_iff_ne]
    rintro ⟨⟩
    exact h.elim (· rfl) (· rfl)
  obtain ⟨p, ps, hpieces⟩ := List.exists_cons_of_ne_nil
    (List.splitOn_ne_nil (',', (0 : Int)) (cs.zip (cs.inits.map fun p => d + depth [c] + depth p)))
  rw [piecesFrom, zip_depths_cons, List.splitOn_cons_eq_if_modifyHead, hne,
    if_neg Bool.false_ne_true, piecesFrom, hpieces]
  rfl

theorem map_intercalate {α β : Type} (f : α → β) (sep : List α) (ps : List (List α)) :
    (sep.intercalate ps).map f = (sep.map f).intercalate (ps.map (List.map f)) := by
  induction ps with
  | nil => rfl
  | cons p ps ih =>
    rcases ps with _ | ⟨q, qs⟩
    · rw [List.intercalate_singleton, List.map_cons, List.map_nil, List.intercalate_singleton]
    · rw [List.intercalate_cons_cons, List.map_append, List.map_append, ih]
      exact List.intercalate_cons_cons.symm

/-- **The pieces with commas between them** are the text. -/
theorem join_piecesFrom (d : Int) (cs : List Char) : Text.join ',' (piecesFrom d cs) = cs := by
  have hlength : cs.length ≤ (cs.inits.map fun p => d + depth p).length := by
    rw [List.length_map, List.length_inits]
    exact Nat.le_succ _
  have hjoin := map_intercalate Prod.fst [(',', (0 : Int))]
    ((cs.zip (cs.inits.map fun p => d + depth p)).splitOn (',', 0))
  rw [List.intercalate_splitOn, List.map_fst_zip hlength] at hjoin
  exact hjoin.symm

/-! ## Cutting -/

theorem afterChar_eq_some_iff {inside b : Bool} {c : Char} :
    afterChar inside c = some b ↔ (b.toNat : Int) = inside.toNat + depth [c] := by
  rw [afterChar, depth_singleton]
  split_ifs <;> cases inside <;> cases b <;> simp_all

/-- **A text is cut** at its commas at depth zero, if its parentheses match and are not nested. -/
theorem splitTop_eq_some_iff {inside : Bool} {cs : List Char} {ps : List (List Char)} :
    splitTop inside cs = some ps ↔
      NestedOnce inside.toNat cs ∧ piecesFrom inside.toNat cs = ps := by
  induction cs generalizing inside ps with
  | nil =>
    rw [nestedOnce_nil]
    cases inside <;> simp [splitTop]
  | cons c cs ih =>
    rw [nestedOnce_cons]
    have hinside : (inside.toNat : Int) = 0 ∨ (inside.toNat : Int) = 1 := by
      cases inside
      · exact .inl rfl
      · exact .inr rfl
    by_cases hcomma : inside = true ∨ c ≠ ','
    · have hpieces : (inside.toNat : Int) ≠ 0 ∨ c ≠ ',' := by
        refine hcomma.imp_left ?_
        rintro rfl
        exact Int.one_ne_zero
      rw [splitTop_cons hcomma, Option.bind_eq_some_iff, piecesFrom_cons hpieces]
      constructor
      · rintro ⟨b, hb, h⟩
        obtain ⟨qs, hqs, rfl⟩ := Option.map_eq_some_iff.mp h
        obtain ⟨hnested, rfl⟩ := ih.mp hqs
        rw [afterChar_eq_some_iff.mp hb] at hnested ⊢
        exact ⟨⟨hinside, hnested⟩, rfl⟩
      · rintro ⟨⟨-, hnested⟩, rfl⟩
        obtain ⟨b, hb⟩ : ∃ b : Bool, (b.toNat : Int) = inside.toNat + depth [c] := by
          rcases hnested.within [] List.nil_prefix with h | h
          · exact ⟨false, by simpa using h.symm⟩
          · exact ⟨true, by simpa using h.symm⟩
        refine ⟨b, afterChar_eq_some_iff.mpr hb, Option.map_eq_some_iff.mpr ⟨_, ?_, rfl⟩⟩
        rw [← hb] at hnested ⊢
        exact ih.mpr ⟨hnested, rfl⟩
    · obtain ⟨rfl, rfl⟩ : inside = false ∧ c = ',' := by simpa using hcomma
      have hzero : ((false.toNat : Int) + depth [',']) = false.toNat := rfl
      change _ ↔ _ ∧ piecesFrom 0 (',' :: cs) = ps
      rw [splitTop_comma, Option.map_eq_some_iff, hzero, piecesFrom_comma]
      constructor
      · rintro ⟨qs, hqs, rfl⟩
        obtain ⟨hnested, rfl⟩ := ih.mp hqs
        exact ⟨⟨hinside, hnested⟩, rfl⟩
      · rintro ⟨⟨-, hnested⟩, rfl⟩
        exact ⟨_, ih.mpr ⟨hnested, rfl⟩, rfl⟩

/-- **The operands of a text** are its pieces without the blanks around them, if none is blank. -/
theorem splitArgs_ok_iff {cs : List Char} {args : List (List Char)} (h : cs ≠ []) :
    splitArgs cs = .ok args ↔ NestedOnce 0 cs ∧
      (∀ p ∈ piecesFrom 0 cs, Text.trim p ≠ []) ∧ (piecesFrom 0 cs).map Text.trim = args := by
  have hcut : ∀ ps, splitTop false cs = some ps ↔ NestedOnce 0 cs ∧ piecesFrom 0 cs = ps :=
    fun _ => splitTop_eq_some_iff
  have hempty : ((piecesFrom 0 cs).map Text.trim).any List.isEmpty = true ↔
      ¬ ∀ p ∈ piecesFrom 0 cs, Text.trim p ≠ [] := by
    simp
  rw [splitArgs, if_neg h]
  cases hsplit : splitTop false cs with
  | none =>
    constructor
    · intro h
      cases h
    · intro h
      rw [(hcut _).mpr ⟨h.1, rfl⟩] at hsplit
      cases hsplit
  | some ps =>
    obtain ⟨hnested, rfl⟩ := (hcut ps).mp hsplit
    dsimp only
    by_cases hany : ((piecesFrom 0 cs).map Text.trim).any List.isEmpty = true
    · rw [if_pos hany]
      constructor
      · intro h
        cases h
      · intro h
        exact absurd h.2.1 (hempty.mp hany)
    · rw [if_neg hany]
      refine ⟨fun h => ⟨hnested, ?_, Except.ok.inj h⟩, fun h => congrArg _ h.2.2⟩
      exact not_not.mp (mt hempty.mpr hany)

/-! ## Commas in parentheses -/

/-- A text that starts at a depth: it is nested once, and its commas are in parentheses. -/
structure Enclosed (d : Int) (p : List Char) : Prop extends NestedOnce d p where
  comma : ∀ q, q ++ [','] <+: p → d + depth q = 1

theorem enclosed_nil : Enclosed 0 [] :=
  ⟨nestedOnce_nil.mpr rfl, fun q hq => absurd (List.prefix_nil.mp hq) (by simp)⟩

/-- **The pieces of a text** are nested once, and their commas are in parentheses. -/
theorem enclosed_piecesFrom {d : Int} {cs : List Char} (h : NestedOnce d cs) :
    ∃ p ps, piecesFrom d cs = p :: ps ∧ Enclosed d p ∧ ∀ q ∈ ps, Enclosed 0 q := by
  -- only the first piece starts where the text does
  induction cs generalizing d with
  | nil =>
    obtain rfl := nestedOnce_nil.mp h
    exact ⟨[], [], rfl, enclosed_nil, nofun⟩
  | cons c cs ih =>
    obtain ⟨hd, htail⟩ := nestedOnce_cons.mp h
    obtain ⟨p, ps, hpieces, hp, hps⟩ := ih htail
    by_cases hcomma : d ≠ 0 ∨ c ≠ ','
    · refine ⟨c :: p, ps, ?_, ⟨nestedOnce_cons.mpr ⟨hd, hp.toNestedOnce⟩, fun q hq => ?_⟩, hps⟩
      · rw [piecesFrom_cons hcomma, hpieces]
        rfl
      · rcases List.prefix_cons_iff.mp hq with hq | ⟨t, ht, hfront⟩
        · exact absurd hq (by simp)
        · rcases q with _ | ⟨c', q⟩
          · obtain ⟨rfl, -⟩ := List.cons_eq_cons.mp ht
            rw [depth_nil, add_zero]
            exact hd.resolve_left (hcomma.resolve_right (not_not_intro rfl))
          · obtain ⟨rfl, rfl⟩ := List.cons_eq_cons.mp ht
            rw [depth_cons, ← add_assoc]
            exact hp.comma q hfront
    · obtain ⟨rfl, rfl⟩ : d = 0 ∧ c = ',' := by simpa using hcomma
      refine ⟨[], piecesFrom 0 cs, piecesFrom_comma cs, enclosed_nil, ?_⟩
      change piecesFrom 0 cs = p :: ps at hpieces
      rw [hpieces]
      rintro q (_ | ⟨_, hq⟩)
      · exact hp
      · exact hps q hq

theorem enclosed_of_mem_piecesFrom {cs p : List Char} (h : NestedOnce 0 cs)
    (hp : p ∈ piecesFrom 0 cs) : Enclosed 0 p := by
  obtain ⟨q, qs, hpieces, hq, hqs⟩ := enclosed_piecesFrom h
  rw [hpieces] at hp
  rcases List.mem_cons.mp hp with rfl | hp
  · exact hq
  · exact hqs p hp

theorem Enclosed.trim {p : List Char} (h : Enclosed 0 p) : Enclosed 0 (Text.trim p) := by
  obtain ⟨l, r, hp, hl, hr⟩ := Text.exists_blanks_trim p
  have hdepth : ∀ q, depth (l ++ q) = depth q := fun q => by
    rw [depth_append, depth_of_blank hl, zero_add]
  have hfront : ∀ q, q <+: Text.trim p → l ++ q <+: p := by
    rintro q ⟨t, ht⟩
    exact ⟨t ++ r, by rw [hp, ← ht]; simp⟩
  refine ⟨⟨fun q hq => ?_, ?_⟩, fun q hq => ?_⟩
  · rw [← hdepth]
    exact h.within _ (hfront q hq)
  · have hclosed := h.closed
    rwa [hp, depth_append, hdepth, depth_of_blank hr, add_zero] at hclosed
  · rw [← hdepth]
    refine h.comma _ ?_
    rw [List.append_assoc]
    exact hfront _ hq

/-! ## Main result -/

/-- **Operands are cut exactly.** A text that is not empty has operands if and only if no
parenthesis in it is nested or closed before it is opened, all are closed, and none of the pieces
between the commas at depth zero is blank. The operands are then these pieces without the blanks
around them. They are nested once themselves, with their commas in parentheses, and but for the
commas between them and the blanks around them the text has nothing else. -/
theorem operands_cut_exactly {cs : List Char} (hne : cs ≠ []) (args : List (List Char)) :
    (splitArgs cs = .ok args ↔
      (∀ p, p <+: cs → depth p = 0 ∨ depth p = 1) ∧ depth cs = 0 ∧
      (∀ p ∈ piecesFrom 0 cs, ∃ c ∈ p, Text.isBlank c = false) ∧
      (piecesFrom 0 cs).map Text.trim = args) ∧
    (splitArgs cs = .ok args →
      (∀ a ∈ args, Text.Bare a ∧ (∀ p, p <+: a → depth p = 0 ∨ depth p = 1) ∧ depth a = 0 ∧
        ∀ p, p ++ [','] <+: a → depth p = 1) ∧
      Text.join ',' (piecesFrom 0 cs) = cs ∧
      List.Forall₂ (fun p a => ∃ l r, p = l ++ a ++ r ∧
        (∀ c ∈ l, Text.isBlank c = true) ∧ ∀ c ∈ r, Text.isBlank c = true)
        (piecesFrom 0 cs) args) := by
  have hblank : ∀ p : List Char, Text.trim p ≠ [] ↔ ∃ c ∈ p, Text.isBlank c = false := by
    intro p
    rw [ne_eq, Text.trim_eq_nil_iff]
    simp
  constructor
  · simp only [splitArgs_ok_iff hne, nestedOnce_zero_iff, hblank, and_assoc]
  · intro hok
    obtain ⟨hcs, -, rfl⟩ := (splitArgs_ok_iff hne).mp hok
    refine ⟨fun a ha => ?_, join_piecesFrom 0 cs, ?_⟩
    · obtain ⟨p, hp, rfl⟩ := List.mem_map.mp ha
      have htrim := (enclosed_of_mem_piecesFrom hcs hp).trim
      obtain ⟨hwithin, hclosed⟩ := nestedOnce_zero_iff.mp htrim.toNestedOnce
      refine ⟨Text.bare_trim p, hwithin, hclosed, ?_⟩
      simpa using htrim.comma
    · rw [List.forall₂_map_right_iff, List.forall₂_same]
      exact fun p _ => Text.exists_blanks_trim p

/-- An address with a comma in it, and a register after a blank. -/
def addressAndRegister : List Char := "8(%eax,%ecx), %edx".toList

/-- The comma of an address ends no operand, the one after it does. -/
theorem operands_cut_exactly_addressAndRegister :
    addressAndRegister ≠ [] ∧
    splitArgs addressAndRegister = .ok ["8(%eax,%ecx)".toList, "%edx".toList] ∧
    (∀ p, p <+: addressAndRegister → depth p = 0 ∨ depth p = 1) ∧
    (piecesFrom 0 addressAndRegister).map Text.trim =
      ["8(%eax,%ecx)".toList, "%edx".toList] := by
  have hne : addressAndRegister ≠ [] := by decide +kernel
  have hok : splitArgs addressAndRegister = .ok ["8(%eax,%ecx)".toList, "%edx".toList] := by
    decide +kernel
  obtain ⟨hwithin, -, -, hargs⟩ := (operands_cut_exactly hne _).1.mp hok
  exact ⟨hne, hok, hwithin, hargs⟩

end Ia32
