import Ia32.Text.Basic
import Mathlib.Data.List.Basic
import Mathlib.Data.List.DropRight

/-!
# Text cut and put together

* `lines_append_newline`, `lines_append_of_ended`: **the lines of a text that follows an ended
  line**; `lines_newline_of_onOneLine`: the first of some lines;
* `splitOn_append`, `splitOn_of_not_mem`, `splitOn_join`: text cut at a character;
* `trim_of_bare`, `trim_cons_blank`: blanks at the ends of a text; **`exists_blanks_trim`**: only
  they are lost.
-/

set_option autoImplicit false

namespace Ia32.Text

/-! ## Lines -/

theorem lines_cons {c : Char} {cs : List Char} (hn : c ≠ '\n')
    (hr : c = '\r' → cs.head? ≠ some '\n') : lines (c :: cs) =
      match lines cs with
      | [] => [[c]]
      | l :: ls => (c :: l) :: ls := by
  have hpair : ∀ ds, c = '\r' → cs = '\n' :: ds → False := by
    rintro ds hc rfl
    exact hr hc rfl
  refine (lines.eq_4 c cs hn hpair).trans ?_
  cases lines cs <;> rfl

theorem lines_ne_nil {cs : List Char} (h : cs ≠ []) : lines cs ≠ [] := by
  fun_cases lines cs with
  | case1 => exact absurd rfl h
  | case2 | case3 | case4 | case5 => exact List.cons_ne_nil _ _

/-- **The lines of a text that follows an ended line.** -/
theorem lines_append_newline (cs ds : List Char) :
    lines (cs ++ '\n' :: ds) = lines (cs ++ ['\n']) ++ lines ds := by
  induction cs using lines.induct with
  | case1 => rfl
  | case2 cs ih =>
    rw [List.cons_append, List.cons_append, lines, lines, ih, List.cons_append]
  | case3 cs ih =>
    rw [List.cons_append, List.cons_append, List.cons_append, List.cons_append, lines, lines, ih,
      List.cons_append]
  | case4 c cs hn hr _ ih | case5 c cs hn hr _ _ _ ih =>
    by_cases hcr : c = '\r' ∧ cs = []
    · obtain ⟨rfl, rfl⟩ := hcr
      rfl
    · have hhead : ∀ es, c = '\r' → (cs ++ '\n' :: es).head? ≠ some '\n' := by
        intro es hc
        rcases cs with _ | ⟨d, cs⟩
        · exact absurd ⟨hc, rfl⟩ hcr
        · rintro h
          obtain rfl : d = '\n' := Option.some.inj h
          exact hr cs hc rfl
      have hne : lines (cs ++ ['\n']) ≠ [] := lines_ne_nil (by simp)
      rw [List.cons_append, List.cons_append, lines_cons hn (hhead ds),
        lines_cons hn (hhead []), ih]
      cases hl : lines (cs ++ ['\n']) with
      | nil => exact absurd hl hne
      | cons l ls => rfl

theorem lines_append_of_ended {cs : List Char} (h : cs = [] ∨ ∃ bs, cs = bs ++ ['\n'])
    (ds : List Char) : lines (cs ++ ds) = lines cs ++ lines ds := by
  rcases h with rfl | ⟨bs, rfl⟩
  · rfl
  · rw [List.append_assoc, List.singleton_append, lines_append_newline]

/-- A text that ends no line. -/
def OnOneLine (cs : List Char) : Prop := ∀ c ∈ cs, c ≠ '\n' ∧ c ≠ '\r'

theorem lines_newline_of_onOneLine {l : List Char} (h : OnOneLine l) (cs : List Char) :
    lines (l ++ '\n' :: cs) = l :: lines cs := by
  induction l with
  | nil => rfl
  | cons c l ih =>
    obtain ⟨hn, hr⟩ := h c List.mem_cons_self
    rw [List.cons_append, lines_cons hn fun hc => absurd hc hr,
      ih fun d hd => h d (List.mem_cons_of_mem _ hd)]

theorem lines_of_onOneLine {l : List Char} (h : OnOneLine l) (hne : l ≠ []) : lines l = [l] := by
  induction l with
  | nil => exact absurd rfl hne
  | cons c l ih =>
    obtain ⟨hn, hr⟩ := h c List.mem_cons_self
    rw [lines_cons hn fun hc => absurd hc hr]
    rcases l with _ | ⟨d, l⟩
    · rfl
    · rw [ih (fun e he => h e (List.mem_cons_of_mem _ he)) (List.cons_ne_nil d l)]

/-! ## Pieces -/

theorem splitOn_ne_nil (sep : Char) (cs : List Char) : splitOn sep cs ≠ [] := by
  fun_cases splitOn sep cs <;> exact List.cons_ne_nil _ _

theorem splitOn_of_not_mem {sep : Char} {p : List Char} (h : sep ∉ p) : splitOn sep p = [p] := by
  induction p with
  | nil => rfl
  | cons c p ih =>
    obtain ⟨hc, hp⟩ := not_or.mp (mt List.mem_cons.mpr h)
    rw [splitOn, if_neg (Ne.symm hc), ih hp]

theorem splitOn_append {sep : Char} {p : List Char} (h : sep ∉ p) (cs : List Char) :
    splitOn sep (p ++ sep :: cs) = p :: splitOn sep cs := by
  induction p with
  | nil => rw [List.nil_append, splitOn, if_pos rfl]
  | cons c p ih =>
    obtain ⟨hc, hp⟩ := not_or.mp (mt List.mem_cons.mpr h)
    rw [List.cons_append, splitOn, if_neg (Ne.symm hc), ih hp]

/-- **Pieces put together** are cut where they were. -/
theorem splitOn_join {sep : Char} {ps : List (List Char)} (h : ∀ p ∈ ps, sep ∉ p) (hne : ps ≠ []) :
    splitOn sep (join sep ps) = ps := by
  induction ps with
  | nil => exact absurd rfl hne
  | cons p ps ih =>
    rcases ps with _ | ⟨q, qs⟩
    · rw [join, List.intercalate_singleton, splitOn_of_not_mem (h p List.mem_cons_self)]
    · rw [join, List.intercalate_cons_cons, List.append_assoc]
      change splitOn sep (p ++ sep :: join sep (q :: qs)) = _
      rw [splitOn_append (h p List.mem_cons_self),
        ih (fun r hr => h r (List.mem_cons_of_mem _ hr)) (List.cons_ne_nil q qs)]

theorem mem_intercalate {sep : List Char} {c : Char} {ps : List (List Char)}
    (h : c ∈ sep.intercalate ps) : c ∈ sep ∨ ∃ p ∈ ps, c ∈ p := by
  induction ps with
  | nil => cases h
  | cons p ps ih =>
    rcases ps with _ | ⟨q, qs⟩
    · rw [List.intercalate_singleton] at h
      exact .inr ⟨p, List.mem_cons_self, h⟩
    · rw [List.intercalate_cons_cons, List.append_assoc, List.mem_append, List.mem_append] at h
      rcases h with h | h | h
      · exact .inr ⟨p, List.mem_cons_self, h⟩
      · exact .inl h
      · exact (ih h).imp_right fun ⟨r, hr, hc⟩ => ⟨r, List.mem_cons_of_mem _ hr, hc⟩

/-! ## Blanks -/

/-- A text that neither starts nor ends with a blank. -/
structure Bare (cs : List Char) : Prop where
  head : ∀ c ∈ cs.head?, isBlank c = false
  last : ∀ c ∈ cs.getLast?, isBlank c = false

theorem bare_of_forall {cs : List Char} (h : ∀ c ∈ cs, isBlank c = false) : Bare cs :=
  ⟨fun c hc => h c (List.mem_of_mem_head? hc), fun c hc => h c (List.mem_of_mem_getLast? hc)⟩

theorem bare_singleton {c : Char} (h : isBlank c = false) : Bare [c] := by
  refine bare_of_forall fun d hd => ?_
  rwa [List.mem_singleton.mp hd]

theorem Bare.append {cs ds : List Char} (h : Bare cs) (h' : Bare ds) : Bare (cs ++ ds) := by
  refine ⟨fun c hc => ?_, fun c hc => ?_⟩
  · rw [List.head?_append, Option.mem_def, Option.or_eq_some_iff] at hc
    rcases hc with hc | ⟨-, hc⟩
    · exact h.head c hc
    · exact h'.head c hc
  · rw [List.getLast?_append, Option.mem_def, Option.or_eq_some_iff] at hc
    rcases hc with hc | ⟨-, hc⟩
    · exact h'.last c hc
    · exact h.last c hc

theorem Bare.between {cs ds : List Char} (h : Bare cs) (hne : cs ≠ []) (h' : Bare ds)
    (hne' : ds ≠ []) (mid : List Char) : Bare (cs ++ (mid ++ ds)) := by
  refine ⟨fun c hc => h.head c ?_, fun c hc => h'.last c ?_⟩
  · rwa [List.head?_append_of_ne_nil _ hne] at hc
  · rwa [← List.append_assoc, List.getLast?_append_of_ne_nil _ hne'] at hc

theorem trimStart_of_head {cs : List Char} (h : ∀ c ∈ cs.head?, isBlank c = false) :
    trimStart cs = cs := by
  rcases cs with _ | ⟨c, cs⟩
  · rfl
  · rw [trimStart, List.dropWhile_cons_of_neg]
    rw [h c rfl]
    exact Bool.false_ne_true

theorem trim_of_bare {cs : List Char} (h : Bare cs) : trim cs = cs := by
  have hreverse : trimStart cs.reverse = cs.reverse := by
    refine trimStart_of_head fun c hc => h.last c ?_
    rwa [List.head?_reverse] at hc
  rw [trim, trimStart_of_head h.head, trimEnd]
  change (trimStart cs.reverse).reverse = cs
  rw [hreverse, List.reverse_reverse]

theorem trim_cons_blank {c : Char} (hc : isBlank c = true) (cs : List Char) :
    trim (c :: cs) = trim cs := by
  rw [trim, trim, trimStart, List.dropWhile_cons_of_pos hc]
  rfl

/-- **Blanks at both ends** are all that a trimmed text lacks. -/
theorem exists_blanks_trim (cs : List Char) : ∃ l r, cs = l ++ trim cs ++ r ∧
    (∀ c ∈ l, isBlank c = true) ∧ ∀ c ∈ r, isBlank c = true := by
  refine ⟨cs.takeWhile isBlank, (trimStart cs).rtakeWhile isBlank, ?_,
    fun _ => List.mem_takeWhile_imp, fun _ => List.mem_rtakeWhile_imp⟩
  calc cs = cs.takeWhile isBlank ++ trimStart cs := List.takeWhile_append_dropWhile.symm
    _ = cs.takeWhile isBlank ++ (trim cs ++ (trimStart cs).rtakeWhile isBlank) :=
      congrArg _ List.rdropWhile_append_rtakeWhile.symm
    _ = _ := (List.append_assoc _ _ _).symm

theorem bare_trim (cs : List Char) : Bare (trim cs) := by
  refine ⟨fun c hc => ?_, fun c hc => ?_⟩
  · -- the first character of what is left of the end is that of what is left of the start
    obtain ⟨r, hr⟩ : trim cs <+: trimStart cs := List.rdropWhile_prefix _ _
    have hhead : (trimStart cs).head? = some c := by
      rw [← hr, List.head?_append, Option.mem_def.mp hc]
      rfl
    have hfirst := List.head?_dropWhile_not isBlank cs
    rwa [show (cs.dropWhile isBlank).head? = some c from hhead] at hfirst
  · obtain ⟨hne, rfl⟩ := List.mem_getLast?_eq_getLast hc
    exact Bool.eq_false_iff.mpr (List.rdropWhile_last_not isBlank _ hne)

theorem trim_eq_nil_iff {cs : List Char} : trim cs = [] ↔ ∀ c ∈ cs, isBlank c = true := by
  obtain ⟨l, r, hcs, hl, hr⟩ := exists_blanks_trim cs
  constructor
  · intro h c hc
    rw [hcs, h, List.append_nil] at hc
    exact (List.mem_append.mp hc).elim (hl c) (hr c)
  · intro h
    by_contra hne
    obtain ⟨c, cs', htrim⟩ := List.exists_cons_of_ne_nil hne
    have hblank := (bare_trim cs).head c (by rw [htrim]; rfl)
    rw [h c (by rw [hcs, htrim]; simp)] at hblank
    cases hblank

end Ia32.Text
