import Ia32.Source
import Ia32.Proofs.Failure
import Ia32.Proofs.Numeral

/-!
# Words and commas

* `isWordChar`: the characters of names and numbers; `Word`: texts of such characters;
* `word_of_isName`, `word_signedHex`: names and numbers are words;
* `splitTop_append_comma`, `splitTop_parentheses`: a comma ends an operand, but not in parentheses;
* `Piece`: the texts of operands; **`splitArgs_intercalate`**: operands with commas between them are
  cut where they were.
-/

set_option autoImplicit false

namespace Ia32

/-! ## Words -/

/-- The characters of names and numbers, and the marks in front of them. -/
def isWordChar (c : Char) : Bool := isNamePart c || c == '%' || c == '-'

/-- A text of such characters only. -/
def Word (cs : List Char) : Prop := ∀ c ∈ cs, isWordChar c = true

theorem isAlpha_iff {c : Char} : c.isAlpha = true ↔
    (65 ≤ c.toNat ∧ c.toNat ≤ 90) ∨ (97 ≤ c.toNat ∧ c.toNat ≤ 122) := by
  have hdef : c.isAlpha = (decide (c.val ≥ 65 ∧ c.val ≤ 90) ||
      (decide (c.val ≥ 97) && decide (c.val ≤ 122))) := rfl
  rw [hdef]
  simp only [Bool.or_eq_true, Bool.and_eq_true, decide_eq_true_iff, ge_iff_le,
    UInt32.le_iff_toNat_le]
  exact Iff.rfl

theorem isDigit_iff {c : Char} : c.isDigit = true ↔ 48 ≤ c.toNat ∧ c.toNat ≤ 57 := by
  have hdef : c.isDigit = (decide (c.val ≥ 48) && decide (c.val ≤ 57)) := rfl
  rw [hdef]
  simp only [Bool.and_eq_true, decide_eq_true_iff, ge_iff_le, UInt32.le_iff_toNat_le]
  exact Iff.rfl

theorem wordChar_bounds {c : Char} (h : isWordChar c = true) : 33 ≤ c.toNat ∧ c.toNat ≤ 122 := by
  simp only [isWordChar, isNamePart, Char.isAlphanum, Bool.or_eq_true, beq_iff_eq, isAlpha_iff,
    isDigit_iff] at h
  rcases h with ((((((h | h) | h) | rfl) | rfl) | rfl) | rfl) | rfl
  · omega
  · omega
  · omega
  all_goals decide

theorem isBlank_of_isWordChar {c : Char} (h : isWordChar c = true) : Text.isBlank c = false := by
  obtain ⟨h0, h1⟩ := wordChar_bounds h
  simp only [Text.isBlank, Text.blankRanges, List.any_cons, List.any_nil, Bool.or_false,
    Bool.or_eq_false_iff, Bool.and_eq_false_iff, decide_eq_false_iff_not]
  omega

theorem isWordChar_of_isNamePart {c : Char} (h : isNamePart c = true) : isWordChar c = true := by
  rw [isWordChar, h]
  rfl

theorem isWordChar_digitChar : ∀ d < 16, isWordChar d.digitChar = true := by
  decide

theorem Word.not_mem {cs : List Char} (h : Word cs) {c : Char} (hc : isWordChar c = false) :
    c ∉ cs := by
  intro hmem
  rw [h c hmem] at hc
  cases hc

theorem Word.bare {cs : List Char} (h : Word cs) : Text.Bare cs :=
  Text.bare_of_forall fun c hc => isBlank_of_isWordChar (h c hc)

theorem word_iff_all {cs : List Char} : Word cs ↔ cs.all isWordChar = true :=
  List.all_eq_true.symm

theorem word_nil : Word [] := fun _ hc => absurd hc List.not_mem_nil

theorem Word.append {cs ds : List Char} (h : Word cs) (h' : Word ds) : Word (cs ++ ds) := by
  intro c hc
  rcases List.mem_append.mp hc with hc | hc
  · exact h c hc
  · exact h' c hc

theorem isNamePart_of_isNameStart {c : Char} (h : isNameStart c = true) :
    isNamePart c = true := by
  unfold isNameStart at h
  unfold isNamePart Char.isAlphanum
  simp only [Bool.or_eq_true] at h ⊢
  tauto

theorem isDigit_of_isNameStart {c : Char} (h : isNameStart c = true) : c.isDigit = false := by
  simp only [isNameStart, Bool.or_eq_true, beq_iff_eq, isAlpha_iff] at h
  rw [← Bool.not_eq_true, isDigit_iff]
  rcases h with ((h | h) | rfl) | rfl
  · omega
  · omega
  all_goals decide

theorem word_of_isName {cs : List Char} (h : isName cs = true) : Word cs := by
  rcases cs with _ | ⟨c, cs⟩
  · cases h
  · obtain ⟨hc, hcs⟩ := Bool.and_eq_true_iff.mp h
    intro d hd
    rcases List.mem_cons.mp hd with rfl | hd
    · exact isWordChar_of_isNamePart (isNamePart_of_isNameStart hc)
    · exact isWordChar_of_isNamePart (List.all_eq_true.mp hcs d hd)

theorem word_signedHex (n : Int) : Word (Text.signedHex n).toList := by
  rw [Text.signedHex, String.toList_append, Text.hex, String.toList_ofList]
  refine Word.append ?_ fun c hc => ?_
  · rw [word_iff_all]
    split <;> decide
  · obtain ⟨d, hd, rfl⟩ := exists_digitChar hc
    exact isWordChar_digitChar d hd

/-! ## Commas -/

/-- Whether a text goes on inside parentheses after a character. -/
def afterChar (inside : Bool) (c : Char) : Option Bool :=
  if c = '(' then (if inside then none else some true)
  else if c = ')' then (if inside then some false else none)
  else some inside

/-- Pieces with a character put in front of the first. -/
def consFirst (c : Char) : List (List Char) → List (List Char)
  | [] => [[c]]
  | p :: ps => (c :: p) :: ps

theorem splitTop_comma (cs : List Char) :
    splitTop false (',' :: cs) = (splitTop false cs).map ([] :: ·) := by
  rw [splitTop]

theorem splitTop_cons {inside : Bool} {c : Char} (h : inside = true ∨ c ≠ ',') (cs : List Char) :
    splitTop inside (c :: cs) =
      (afterChar inside c).bind fun b => (splitTop b cs).map (consFirst c) := by
  have hcomma : inside = false → c = ',' → False := by
    rintro rfl rfl
    rcases h with h | h
    · cases h
    · exact h rfl
  refine (splitTop.eq_3 inside c cs hcomma).trans ?_
  unfold afterChar
  split_ifs <;> rfl

theorem consFirst_append {c : Char} {ps : List (List Char)} (h : ps ≠ [])
    (qs : List (List Char)) : consFirst c (ps ++ qs) = consFirst c ps ++ qs := by
  cases ps with
  | nil => exact absurd rfl h
  | cons p ps => rfl

theorem splitTop_ne_nil {inside : Bool} {cs : List Char} {ps : List (List Char)}
    (h : splitTop inside cs = some ps) : ps ≠ [] := by
  rcases cs with _ | ⟨c, cs⟩
  · cases inside <;> cases h
    exact List.cons_ne_nil _ _
  · by_cases hcomma : inside = true ∨ c ≠ ','
    · rw [splitTop_cons hcomma] at h
      obtain ⟨b, -, h⟩ := Option.bind_eq_some_iff.mp h
      obtain ⟨qs, -, rfl⟩ := Option.map_eq_some_iff.mp h
      cases qs <;> exact List.cons_ne_nil _ _
    · obtain ⟨hinside, rfl⟩ : inside = false ∧ c = ',' := by simpa using hcomma
      rw [hinside, splitTop_comma] at h
      obtain ⟨qs, -, rfl⟩ := Option.map_eq_some_iff.mp h
      exact List.cons_ne_nil _ _

/-- **A comma outside parentheses** ends a piece. -/
theorem splitTop_append_comma {inside : Bool} {cs : List Char} {ps : List (List Char)}
    (h : splitTop inside cs = some ps) (rest : List Char) :
    splitTop inside (cs ++ ',' :: rest) = (splitTop false rest).map (ps ++ ·) := by
  -- the text before the comma may start in parentheses, but must not end in them
  induction cs generalizing inside ps with
  | nil =>
    cases inside <;> cases h
    exact splitTop_comma rest
  | cons c cs ih =>
    rw [List.cons_append]
    by_cases hcomma : inside = true ∨ c ≠ ','
    · rw [splitTop_cons hcomma] at h ⊢
      obtain ⟨b, hb, h⟩ := Option.bind_eq_some_iff.mp h
      obtain ⟨qs, hqs, rfl⟩ := Option.map_eq_some_iff.mp h
      rw [hb, Option.bind_some, ih hqs, Option.map_map]
      congr 1
      funext rs
      exact consFirst_append (splitTop_ne_nil hqs) rs
    · obtain ⟨rfl, rfl⟩ : inside = false ∧ c = ',' := by simpa using hcomma
      rw [splitTop_comma] at h ⊢
      obtain ⟨qs, hqs, rfl⟩ := Option.map_eq_some_iff.mp h
      rw [ih hqs, Option.map_map]
      rfl

theorem splitTop_word_append {w p : List Char} {ps : List (List Char)} (hw : Word w)
    (h : splitTop false p = some (p :: ps)) : splitTop false (w ++ p) = some ((w ++ p) :: ps) := by
  induction w with
  | nil => exact h
  | cons c w ih =>
    have hword : ∀ d, isWordChar d = false → c ≠ d := by
      rintro d hd rfl
      exact Word.not_mem hw hd List.mem_cons_self
    have hafter : afterChar false c = some false := by
      rw [afterChar, if_neg (hword '(' (by decide)), if_neg (hword ')' (by decide))]
    rw [List.cons_append, splitTop_cons (.inr (hword ',' (by decide))), hafter, Option.bind_some,
      ih fun d hd => hw d (List.mem_cons_of_mem _ hd)]
    rfl

/-- What stands in parentheses belongs to one piece, with its commas. -/
theorem splitTop_parentheses {inner : List Char} (h : '(' ∉ inner) (h' : ')' ∉ inner) :
    splitTop false ('(' :: (inner ++ [')'])) = some ['(' :: (inner ++ [')'])] := by
  have hinner : splitTop true (inner ++ [')']) = some [inner ++ [')']] := by
    induction inner with
    | nil => rfl
    | cons c inner ih =>
      obtain ⟨hopen, hopens⟩ := not_or.mp (mt List.mem_cons.mpr h)
      obtain ⟨hclose, hcloses⟩ := not_or.mp (mt List.mem_cons.mpr h')
      rw [List.cons_append, splitTop_cons (.inl rfl), afterChar, if_neg (Ne.symm hopen),
        if_neg (Ne.symm hclose), Option.bind_some, ih hopens hcloses]
      rfl
  rw [splitTop_cons (.inr (by decide)), afterChar, if_pos rfl]
  change (splitTop true (inner ++ [')'])).map (consFirst '(') = _
  rw [hinner]
  rfl

/-- A text that is one operand of a list of operands. -/
structure Piece (p : List Char) : Prop where
  split : splitTop false p = some [p]
  ne_nil : p ≠ []
  bare : Text.Bare p

theorem Word.piece {p : List Char} (h : Word p) (hne : p ≠ []) : Piece p := by
  have hnil : splitTop false ([] : List Char) = some [[]] := rfl
  have hsplit := splitTop_word_append h hnil
  rw [List.append_nil] at hsplit
  exact ⟨hsplit, hne, h.bare⟩

theorem splitTop_intercalate {p : List Char} {ps : List (List Char)} (hp : Piece p)
    (hps : ∀ q ∈ ps, Piece q) :
    splitTop false ([',', ' '].intercalate (p :: ps)) = some (p :: ps.map (' ' :: ·)) := by
  induction ps generalizing p with
  | nil =>
    rw [List.intercalate_singleton, hp.split]
    rfl
  | cons q qs ih =>
    have hrest := ih (hps q List.mem_cons_self) fun r hr => hps r (List.mem_cons_of_mem _ hr)
    have hblank : splitTop false (' ' :: [',', ' '].intercalate (q :: qs)) =
        some ((' ' :: q) :: qs.map (' ' :: ·)) := by
      rw [splitTop_cons (.inr (by decide))]
      change (splitTop false _).map (consFirst ' ') = _
      rw [hrest]
      rfl
    rw [List.intercalate_cons_cons, List.append_assoc]
    change splitTop false (p ++ ',' :: ' ' :: [',', ' '].intercalate (q :: qs)) = _
    rw [splitTop_append_comma hp.split, hblank]
    rfl

theorem intercalate_ne_nil {p : List Char} (hp : p ≠ []) (ps : List (List Char)) :
    [',', ' '].intercalate (p :: ps) ≠ [] := by
  rcases ps with _ | ⟨q, qs⟩
  · rwa [List.intercalate_singleton]
  · rw [List.intercalate_cons_cons, List.append_assoc]
    exact List.append_ne_nil_of_left_ne_nil hp _

/-- **Operands with commas between them** are cut where they were. -/
theorem splitArgs_intercalate {ps : List (List Char)} (h : ∀ p ∈ ps, Piece p) :
    splitArgs ([',', ' '].intercalate ps) = .ok ps := by
  rcases ps with _ | ⟨p, ps⟩
  · rfl
  · have hp := h p List.mem_cons_self
    have hps : ∀ q ∈ ps, Piece q := fun q hq => h q (List.mem_cons_of_mem _ hq)
    have htrim : (p :: ps.map (' ' :: ·)).map Text.trim = p :: ps := by
      rw [List.map_cons, Text.trim_of_bare hp.bare, List.map_map]
      congr 1
      refine (List.map_congr_left fun q hq => ?_).trans (List.map_id ps)
      exact (Text.trim_cons_blank rfl q).trans (Text.trim_of_bare (hps q hq).bare)
    have hany : (p :: ps).any List.isEmpty = false := by
      rw [List.any_eq_false]
      intro q hq
      rw [List.isEmpty_iff]
      exact (h q hq).ne_nil
    rw [splitArgs, if_neg (intercalate_ne_nil hp.ne_nil ps), splitTop_intercalate hp hps]
    dsimp only
    rw [htrim, hany]
    rfl

theorem bare_intercalate {ps : List (List Char)} (h : ∀ p ∈ ps, Piece p) :
    Text.Bare ([',', ' '].intercalate ps) := by
  induction ps with
  | nil => exact ⟨nofun, nofun⟩
  | cons p ps ih =>
    have hp := h p List.mem_cons_self
    rcases ps with _ | ⟨q, qs⟩
    · rw [List.intercalate_singleton]
      exact hp.bare
    · have hrest := ih fun r hr => h r (List.mem_cons_of_mem _ hr)
      rw [List.intercalate_cons_cons, List.append_assoc]
      exact hp.bare.between hp.ne_nil hrest (intercalate_ne_nil (h q (by simp)).ne_nil qs) _

end Ia32
