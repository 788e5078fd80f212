import Ia32.Proofs.Lines
import Ia32.Proofs.Concatenation

/-!
# Texts read in parts

* `AssemblyError.later`, `Source.later`: an error, and what is read, so many lines further down;
* `readLines_add`, `readLines_append`: what lines say further down, and after others;
* `Labelled`, `HasLabels`: the labels at the start of a line; `labelled_takeLabels`: they are taken;
* `Source.Writes`, `Source.labels_ofLines`: the labels of a text, none of which is lost;
* **`Source.read_append`**: a text after an ended line is read as if it stood alone.
-/

set_option autoImplicit false

namespace Ia32

/-! ## Lines further down -/

/-- An error so many lines further down. -/
def AssemblyError.later (k : Nat) (e : AssemblyError) : AssemblyError :=
  { e with line := e.line.map (· + k) }

theorem onLine_add {α : Type} (n k : Nat) (x : Except Cause α) :
    onLine (n + k) x = (onLine n x).mapError (AssemblyError.later k) := by
  cases x <;> rfl

/-- Lines so many lines further down. -/
def laterLines (k : Nat) (ls : List (Nat × Line)) : List (Nat × Line) :=
  ls.map fun l => (l.1 + k, l.2)

/-- **What lines say** does not depend on their numbers. -/
theorem readLines_add (n k : Nat) (ls : List (List Char)) : readLines (n + k) ls =
    match readLines n ls with
    | .ok xs => .ok (laterLines k xs)
    | .error e => .error (e.later k) := by
  induction ls generalizing n with
  | nil => rfl
  | cons l ls ih =>
    rw [readLines, readLines, onLine_add, Nat.add_right_comm, ih]
    cases onLine n (Line.read l) with
    | error e => rfl
    | ok line => cases readLines (n + 1) ls <;> rfl

/-- **Lines after others** are read if those are. -/
theorem readLines_append (n : Nat) (ls ls' : List (List Char)) : readLines n (ls ++ ls') =
    match readLines n ls with
    | .ok xs => (xs ++ ·) <$> readLines (n + ls.length) ls'
    | .error e => .error e := by
  induction ls generalizing n with
  | nil =>
    change readLines n ls' = (fun ys => ys) <$> readLines n ls'
    exact (id_map _).symm
  | cons l ls ih =>
    rw [List.cons_append, readLines, readLines, ih, List.length_cons, Nat.add_assoc n 1,
      Nat.add_comm 1]
    cases onLine n (Line.read l) with
    | error e => rfl
    | ok line =>
      cases readLines (n + 1) ls with
      | error e => rfl
      | ok xs =>
        cases readLines (n + (ls.length + 1)) ls' <;> rfl

namespace Source

/-! ## Statements further down -/

/-- What is read so many lines further down. -/
def later (k : Nat) (s : Source) : Source where
  statements := s.statements.map fun r => { r with line := r.line + k }
  trailing := s.trailing.map fun l => (l.1, l.2 + k)

theorem ofLines_later (k : Nat) (waiting : List (String × Nat)) (ls : List (Nat × Line)) :
    ofLines (waiting.map fun l => (l.1, l.2 + k)) (laterLines k ls) =
      (ofLines waiting ls).later k := by
  induction ls generalizing waiting with
  | nil => rfl
  | cons l ls ih =>
    obtain ⟨n, labels, body⟩ := l
    have hlabels : (waiting.map fun l => (l.1, l.2 + k)) ++ labels.map (·, n + k) =
        (waiting ++ labels.map (·, n)).map fun l => (l.1, l.2 + k) := by
      rw [List.map_append, List.map_map]
      rfl
    rw [laterLines, List.map_cons, ofLines, ofLines]
    dsimp only
    rw [hlabels]
    cases body with
    | none => exact ih _
    | some body =>
      have hrest := ih []
      rw [List.map_nil, laterLines] at hrest
      rw [hrest, List.map_map]
      rfl

end Source

/-! ## Labels of lines -/

/-- What a line starts with: labels, each a name before a colon, and after them no other one. -/
inductive Labelled : List Char → List String → List Char → Prop where
  | rest {cs : List Char}
      (h : ∀ p ds, cs = p ++ ':' :: ds → ':' ∉ p → isName (Text.trim p) = false) :
      Labelled cs [] cs
  | label {p ds rest : List Char} {labels : List String} (hp : ':' ∉ p)
      (hname : isName (Text.trim p) = true) (h : Labelled ds labels rest) :
      Labelled (p ++ ':' :: ds) (String.ofList (Text.trim p) :: labels) rest

theorem Text.splitOn_cons_eq {sep : Char} {cs p : List Char} {ps : List (List Char)}
    (h : splitOn sep cs = p :: ps) :
    sep ∉ p ∧ (ps = [] ∧ cs = p ∨ ∃ ds, cs = p ++ sep :: ds ∧ splitOn sep ds = ps) := by
  by_cases hsep : sep ∈ cs
  · obtain ⟨q, ds, rfl, hq⟩ := List.eq_append_cons_of_mem hsep
    rw [splitOn_append hq] at h
    obtain ⟨rfl, hps⟩ := List.cons_eq_cons.mp h
    exact ⟨hq, .inr ⟨ds, rfl, hps⟩⟩
  · rw [splitOn_of_not_mem hsep] at h
    obtain ⟨rfl, rfl⟩ := List.cons_eq_cons.mp h
    exact ⟨hsep, .inl ⟨rfl, rfl⟩⟩

theorem Text.join_splitOn (sep : Char) (cs : List Char) : join sep (splitOn sep cs) = cs := by
  generalize hps : splitOn sep cs = ps
  induction ps generalizing cs with
  | nil => exact absurd hps (splitOn_ne_nil sep cs)
  | cons p ps ih =>
    obtain ⟨-, ⟨rfl, rfl⟩ | ⟨ds, rfl, hds⟩⟩ := splitOn_cons_eq hps
    · exact List.intercalate_singleton
    · obtain ⟨q, qs, rfl⟩ := List.exists_cons_of_ne_nil (hds ▸ splitOn_ne_nil sep ds)
      have hjoin := ih ds hds
      rw [join] at hjoin ⊢
      rw [List.intercalate_cons_cons, hjoin, List.append_assoc, List.singleton_append]

/-- **The labels that are taken** are those that a line starts with. -/
theorem labelled_takeLabels (cs : List Char) :
    Labelled cs (takeLabels (Text.splitOn ':' cs)).1 (takeLabels (Text.splitOn ':' cs)).2 := by
  generalize hps : Text.splitOn ':' cs = ps
  induction ps using takeLabels.induct generalizing cs with
  | case1 => exact absurd hps (Text.splitOn_ne_nil _ _)
  | case2 p =>
    obtain ⟨hp, ⟨-, rfl⟩ | ⟨ds, -, hds⟩⟩ := Text.splitOn_cons_eq hps
    · refine .rest fun q ds hcs _ => absurd ?_ hp
      rw [hcs]
      simp
    · exact absurd hds (Text.splitOn_ne_nil _ _)
  | case3 p q ps hname labels rest hrec ih =>
    obtain ⟨hp, ⟨hnil, -⟩ | ⟨ds, rfl, hds⟩⟩ := Text.splitOn_cons_eq hps
    · cases hnil
    · rw [takeLabels, if_pos hname]
      exact .label hp hname (ih ds hds)
  | case4 p q ps hname =>
    rw [takeLabels, if_neg hname, ← hps, Text.join_splitOn]
    refine .rest fun p' ds hcs hp' => ?_
    rw [hcs, Text.splitOn_append hp'] at hps
    obtain ⟨rfl, -⟩ := List.cons_eq_cons.mp hps
    exact Bool.eq_false_iff.mpr hname

/-- A line has labels, before its comment. -/
def HasLabels (cs : List Char) (labels : List String) : Prop :=
  ∃ rest, Labelled (dropComment cs) labels rest

theorem Line.hasLabels_of_read {cs : List Char} {line : Line} (h : Line.read cs = .ok line) :
    HasLabels cs line.labels := by
  have hlabels := labelled_takeLabels (dropComment cs)
  unfold Line.read at h
  generalize takeLabels (Text.splitOn ':' (dropComment cs)) = taken at h hlabels
  obtain ⟨labels, rest⟩ := taken
  dsimp only at h hlabels
  split at h
  · cases h
    exact ⟨rest, hlabels⟩
  · obtain ⟨body, -, h⟩ := bind_ok_iff.mp h
    cases h
    exact ⟨rest, hlabels⟩

/-! ## Labels of texts -/

/-- The labels of lines, each with the number of its line. -/
def labelsOf (ls : List (Nat × Line)) : List (String × Nat) :=
  ls.flatMap fun l => l.2.labels.map (·, l.1)

namespace Source

/-- The labels that a text has, line by line, each with the number of its line. -/
def Writes (text : String) (labels : List (String × Nat)) : Prop :=
  ∃ ls, List.Forall₂ HasLabels (Text.lines text.toList) ls ∧
    labels = (ls.zipIdx 1).flatMap fun l => l.1.map (·, l.2)

theorem labelsOf_eq {n : Nat} {cs : List (List Char)} {ls : List (Nat × Line)}
    (h : readLines n cs = .ok ls) :
    ∃ labels, List.Forall₂ HasLabels cs labels ∧
      labelsOf ls = (labels.zipIdx n).flatMap fun l => l.1.map (·, l.2) := by
  induction cs generalizing n ls with
  | nil =>
    cases h
    exact ⟨[], .nil, rfl⟩
  | cons l cs ih =>
    obtain ⟨line, hline, h⟩ := bind_ok_iff.mp h
    obtain ⟨rest, hrest, h⟩ := bind_ok_iff.mp h
    cases h
    obtain ⟨labels, hlabels, heq⟩ := ih hrest
    have hfirst := Line.hasLabels_of_read (onLine_ok_iff.mp hline)
    refine ⟨line.labels :: labels, .cons hfirst hlabels, ?_⟩
    rw [labelsOf, List.flatMap_cons, List.zipIdx_cons, List.flatMap_cons, ← heq]
    rfl

/-- **No label of lines is lost**: it goes to a statement, in order, or waits at the end. -/
theorem labels_ofLines (waiting : List (String × Nat)) (ls : List (Nat × Line)) :
    ∃ front, waiting ++ labelsOf ls = front ++ (ofLines waiting ls).trailing ∧
      (ofLines waiting ls).statements.flatMap (·.labels) = front.map Prod.fst := by
  -- the induction is on the lines: a line without a statement adds its labels to those that wait
  induction ls generalizing waiting with
  | nil => exact ⟨[], by simp [labelsOf, ofLines], rfl⟩
  | cons l ls ih =>
    obtain ⟨n, labels, _ | body⟩ := l
    · obtain ⟨front, heq, hfront⟩ := ih (waiting ++ labels.map (·, n))
      refine ⟨front, ?_, hfront⟩
      rw [labelsOf, List.flatMap_cons, ← List.append_assoc]
      exact heq
    · obtain ⟨front, heq, hfront⟩ := ih []
      refine ⟨waiting ++ labels.map (·, n) ++ front, ?_, ?_⟩
      · rw [labelsOf, List.flatMap_cons, ← List.append_assoc, List.append_assoc _ front]
        exact congrArg _ heq
      · change (waiting ++ labels.map (·, n)).map Prod.fst ++
          (ofLines [] ls).statements.flatMap (·.labels) = _
        rw [hfront, ← List.map_append]

/-- **The labels that are read** are those of the text, in their order. -/
theorem labels_read {text : String} {s : Source} (h : read text = .ok s) :
    ∃ front, Writes text (front ++ s.trailing) ∧
      s.statements.flatMap (·.labels) = front.map Prod.fst := by
  obtain ⟨ls, hls, rfl⟩ := map_ok_iff.mp h
  obtain ⟨labels, hlabels, heq⟩ := labelsOf_eq hls
  obtain ⟨front, hfront, hstatements⟩ := labels_ofLines [] ls
  exact ⟨front, ⟨labels, hlabels, by rw [← heq, ← hfront, List.nil_append]⟩, hstatements⟩

theorem lines_pairwise {text : String} {s : Source} (h : read text = .ok s) :
    s.statements.Pairwise (·.line < ·.line) := by
  have hbodies := bodies_pairwise text
  rw [← bodies_eq h, List.pairwise_map] at hbodies
  exact hbodies

/-! ## Texts in parts -/

theorem exists_line_of_readLines {n : Nat} {cs : List (List Char)} {e : AssemblyError}
    (h : readLines n cs = .error e) : ∃ k, e.line = some k := by
  induction cs generalizing n with
  | nil => cases h
  | cons l cs ih =>
    rcases bind_error_iff.mp h with hline | ⟨line, -, h⟩
    · exact ⟨n, (onLine_error_iff.mp hline).2⟩
    · rcases bind_error_iff.mp h with hrest | ⟨rest, -, h⟩
      · exact ih hrest
      · cases h

theorem read_append_eq {a b : String} (hend : a = "" ∨ ∃ s, a = s ++ "\n") : read (a ++ b) =
    match readLines 1 (Text.lines a.toList) with
    | .ok xs => (fun ys => ofLines [] (xs ++ laterLines (Text.lines a.toList).length ys)) <$>
        (readLines 1 (Text.lines b.toList)).mapError (.later (Text.lines a.toList).length)
    | .error e => .error e := by
  have hchars : a.toList = [] ∨ ∃ bs, a.toList = bs ++ ['\n'] := by
    rcases hend with rfl | ⟨s, rfl⟩
    · exact .inl rfl
    · exact .inr ⟨s.toList, String.toList_append⟩
  rw [read, String.toList_append, Text.lines_append_of_ended hchars, readLines_append,
    readLines_add]
  cases readLines 1 (Text.lines a.toList) with
  | error e => rfl
  | ok xs => cases readLines 1 (Text.lines b.toList) <;> rfl

/-- **A text after an ended line** is read as if it stood alone, so many lines further down; labels
that wait at the end of the first go in front of those of the second. The first error is that of the
whole. Of every text that is read, the statements stand on lines further and further down, and its
labels are all there, in order. -/
theorem read_append {a b : String} (hend : a = "" ∨ ∃ s, a = s ++ "\n") :
    (∀ e, read a = .error e → read (a ++ b) = .error e) ∧
    (∀ s e, read a = .ok s → read b = .error e → ∃ n, e.line = some n ∧
      read (a ++ b) = .error ⟨e.cause, some (n + (Text.lines a.toList).length)⟩) ∧
    (∀ s s', read a = .ok s → read b = .ok s' →
      read (a ++ b) = .ok (s.append (s'.later (Text.lines a.toList).length))) ∧
    ∀ text s, read text = .ok s → s.statements.Pairwise (·.line < ·.line) ∧
      ∃ front, Writes text (front ++ s.trailing) ∧
        s.statements.flatMap (·.labels) = front.map Prod.fst := by
  refine ⟨fun e ha => ?_, fun s e ha hb => ?_, fun s s' ha hb => ?_,
    fun text s h => ⟨lines_pairwise h, labels_read h⟩⟩
  · rw [read_append_eq hend, map_error_iff.mp ha]
  · obtain ⟨xs, hxs, rfl⟩ := map_ok_iff.mp ha
    have herror := map_error_iff.mp hb
    obtain ⟨n, hn⟩ := exists_line_of_readLines herror
    have hlater : e.later (Text.lines a.toList).length =
        ⟨e.cause, some (n + (Text.lines a.toList).length)⟩ := by
      rw [AssemblyError.later, hn]
      rfl
    refine ⟨n, hn, ?_⟩
    rw [read_append_eq hend, hxs, herror, ← hlater]
    rfl
  · obtain ⟨xs, hxs, rfl⟩ := map_ok_iff.mp ha
    obtain ⟨ys, hys, rfl⟩ := map_ok_iff.mp hb
    rw [read_append_eq hend, hxs, hys, ← ofLines_later, List.map_nil,
      ← ofLines_append]
    rfl

/-- A statement, and behind it a label that waits. -/
def headPart : String := "start: nop ; begin\r\nnext:\n"

/-- A label, a statement and a label on lines of their own. -/
def tailPart : String := "\nloop: nop\nend:"

/-- The label that waits in the first part goes in front of the first label of the second. -/
theorem read_append_parts :
    read (headPart ++ tailPart) =
      .ok ⟨[⟨["start"], .instruction "nop" [], 1⟩, ⟨["next", "loop"], .instruction "nop" [], 4⟩],
        [("end", 5)]⟩ ∧
    read (headPart ++ "?") = .error ⟨.unexpected "?", some 3⟩ ∧
    read ("?\n" ++ tailPart) = .error ⟨.unexpected "?", some 1⟩ ∧
    ∃ front, Writes headPart (front ++ [("next", 2)]) ∧ ["start"] = front.map Prod.fst := by
  have hhead : read headPart =
      .ok ⟨[⟨["start"], .instruction "nop" [], 1⟩], [("next", 2)]⟩ := by
    decide +kernel
  have htail : read tailPart =
      .ok ⟨[⟨["loop"], .instruction "nop" [], 2⟩], [("end", 3)]⟩ := by
    decide +kernel
  have hmark : read "?" = .error ⟨.unexpected "?", some 1⟩ := by decide +kernel
  have hmark' : read "?\n" = .error ⟨.unexpected "?", some 1⟩ := by decide +kernel
  have hend : headPart = "" ∨ ∃ s, headPart = s ++ "\n" :=
    .inr ⟨"start: nop ; begin\r\nnext:", by decide +kernel⟩
  refine ⟨?_, ?_, ?_, ((read_append (b := tailPart) hend).2.2.2 _ _ hhead).2⟩
  · rw [(read_append hend).2.2.1 _ _ hhead htail]
    decide +kernel
  · obtain ⟨n, hn, h⟩ := (read_append hend).2.1 _ _ hhead hmark
    cases hn
    rw [h]
    decide +kernel
  · exact (read_append (.inr ⟨"?", by decide +kernel⟩)).1 _ hmark'

end Source

end Ia32
