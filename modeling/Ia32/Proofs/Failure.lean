import Ia32.Assembly.Instruction
import Mathlib.Data.List.Forall2

/-!
# Computations that can fail

* `bind_ok_iff`, `bind_error_iff`: one computation after another, by how it ends;
* `mapM_ok_iff`, **`mapM_error_iff`**: a computation on every member of a list;
* `encoded_ok_iff`, `onLine_ok_iff`: errors of encodings as causes, causes as errors on a line;
* `Raises`: what holds of every error of a computation; `Raises.bind`: one part at a time;
* `mem_of_lookup`, **`lookup_iff_mem`**: what is found in a table.
-/

set_option autoImplicit false

namespace Ia32

/-! ## One after another -/

section Sequence

variable {ε α β : Type} {x : Except ε α} {f : α → Except ε β}

theorem bind_ok_iff {b : β} : x >>= f = .ok b ↔ ∃ a, x = .ok a ∧ f a = .ok b := by
  cases x with
  | ok a => exact ⟨fun h => ⟨a, rfl, h⟩, fun ⟨_, rfl, h⟩ => h⟩
  | error e => exact ⟨nofun, nofun⟩

theorem bind_error_iff {e : ε} :
    x >>= f = .error e ↔ x = .error e ∨ ∃ a, x = .ok a ∧ f a = .error e := by
  cases x with
  | ok a => exact ⟨fun h => .inr ⟨a, rfl, h⟩, fun | .inr ⟨_, rfl, h⟩ => h⟩
  | error e' =>
    exact ⟨fun h => .inl (congrArg _ (Except.error.inj h)),
      fun | .inl h => congrArg _ (Except.error.inj h)⟩

theorem map_ok_iff {g : α → β} {b : β} : g <$> x = .ok b ↔ ∃ a, x = .ok a ∧ g a = b := by
  cases x with
  | ok a => exact ⟨fun h => ⟨a, rfl, Except.ok.inj h⟩, fun ⟨_, rfl, h⟩ => congrArg _ h⟩
  | error e => exact ⟨nofun, nofun⟩

theorem map_error_iff {g : α → β} {e : ε} : g <$> x = .error e ↔ x = .error e := by
  cases x with
  | ok a => exact ⟨nofun, nofun⟩
  | error e' =>
    exact ⟨fun h => congrArg _ (Except.error.inj h), fun h => congrArg _ (Except.error.inj h)⟩

theorem pure_ok_iff {a b : α} : (pure a : Except ε α) = .ok b ↔ a = b :=
  ⟨Except.ok.inj, congrArg _⟩

theorem throw_ne_ok {e : ε} {a : α} : (throw e : Except ε α) ≠ .ok a := nofun

theorem throw_bind {e : ε} : (throw e : Except ε α) >>= f = throw e := rfl

theorem toOption_eq_some_iff {a : α} : x.toOption = some a ↔ x = .ok a := by
  cases x <;> simp [Except.toOption]

theorem guard_ok_iff {p : Prop} [Decidable p] {e : ε} {a : α} :
    (if p then throw e else x) = .ok a ↔ ¬ p ∧ x = .ok a := by
  by_cases hp : p
  · rw [if_pos hp]
    exact ⟨fun h => absurd h throw_ne_ok, fun h => absurd hp h.1⟩
  · rw [if_neg hp]
    exact ⟨fun h => ⟨hp, h⟩, fun h => h.2⟩

end Sequence

theorem mapM_ok_iff {ε α β : Type} {f : α → Except ε β} {xs : List α} {ys : List β} :
    xs.mapM f = .ok ys ↔ List.Forall₂ (fun x y => f x = .ok y) xs ys := by
  induction xs generalizing ys with
  | nil => rw [List.mapM_nil, pure_ok_iff, List.forall₂_nil_left_iff, eq_comm]
  | cons x xs ih =>
    simp only [List.mapM_cons, bind_ok_iff, pure_ok_iff, ih, List.forall₂_cons_left_iff]
    constructor
    · rintro ⟨y, hy, ys, hys, rfl⟩
      exact ⟨y, ys, hy, hys, rfl⟩
    · rintro ⟨y, ys, hy, hys, rfl⟩
      exact ⟨y, hy, ys, hys, rfl⟩

theorem eq_filterMap_of_mapM_ok {ε α β : Type} {f : α → Except ε β} {xs : List α} {ys : List β}
    (h : xs.mapM f = .ok ys) : ys = xs.filterMap fun x => (f x).toOption := by
  have hall := mapM_ok_iff.mp h
  clear h
  induction hall with
  | nil => rfl
  | @cons x y xs ys hxy _ ih => rw [List.filterMap_cons, hxy, ih]; rfl

/-- **A computation on every member of a list** fails for the first member on which it fails. -/
theorem mapM_error_iff {ε α β : Type} {f : α → Except ε β} {xs : List α} {e : ε} :
    xs.mapM f = .error e ↔ ∃ before x after, xs = before ++ x :: after ∧
      (∀ y ∈ before, ∃ b, f y = .ok b) ∧ f x = .error e := by
  induction xs with
  | nil => simp [pure, Except.pure]
  | cons x xs ih =>
    rw [List.mapM_cons, bind_error_iff]
    constructor
    · rintro (hx | ⟨y, hy, h⟩)
      · exact ⟨[], x, xs, rfl, nofun, hx⟩
      · rcases bind_error_iff.mp h with h | ⟨ys, -, h⟩
        · obtain ⟨before, z, after, rfl, hbefore, hz⟩ := ih.mp h
          exact ⟨x :: before, z, after, rfl, List.forall_mem_cons.mpr ⟨⟨y, hy⟩, hbefore⟩, hz⟩
        · cases h
    · rintro ⟨_ | ⟨y, before⟩, z, after, hxs, hbefore, hz⟩
      · obtain ⟨rfl, rfl⟩ := List.cons_eq_cons.mp hxs
        exact .inl hz
      · obtain ⟨rfl, rfl⟩ := List.cons_eq_cons.mp hxs
        obtain ⟨⟨y', hy⟩, hbefore⟩ := List.forall_mem_cons.mp hbefore
        exact .inr ⟨y', hy, bind_error_iff.mpr (.inl (ih.mpr ⟨before, z, after, rfl, hbefore, hz⟩))⟩

theorem exists_of_forall₂ {α β : Type} {R : α → β → Prop} {xs : List α} {ys : List β} {y : β}
    (h : List.Forall₂ R xs ys) (hy : y ∈ ys) : ∃ x ∈ xs, R x y := by
  induction h with
  | nil => exact absurd hy List.not_mem_nil
  | @cons x _ xs ys hx _ ih =>
    rcases List.mem_cons.mp hy with rfl | hy
    · exact ⟨x, List.mem_cons_self, hx⟩
    · obtain ⟨x', hx', h'⟩ := ih hy
      exact ⟨x', List.mem_cons_of_mem _ hx', h'⟩

theorem exists_of_mapM_ok {ε α β : Type} {f : α → Except ε β} {xs : List α} {ys : List β} {y : β}
    (h : xs.mapM f = .ok ys) (hy : y ∈ ys) : ∃ x ∈ xs, f x = .ok y :=
  exists_of_forall₂ (R := fun x y => f x = .ok y) (mapM_ok_iff.mp h) hy

/-! ## Causes and lines -/

section Blame

variable {α : Type}

theorem encoded_ok_iff {x : Except EncodeError α} {a : α} : encoded x = .ok a ↔ x = .ok a := by
  cases x <;> simp [encoded]

theorem encoded_error_iff {x : Except EncodeError α} {c : Cause} :
    encoded x = .error c ↔ ∃ e, x = .error e ∧ c = .encoding e := by
  cases x with
  | ok a => simp [encoded]
  | error e => simp [encoded, eq_comm]

theorem onLine_ok_iff {n : Nat} {x : Except Cause α} {a : α} :
    onLine n x = .ok a ↔ x = .ok a := by
  cases x <;> simp [onLine]

theorem onLine_error_iff {n : Nat} {x : Except Cause α} {e : AssemblyError} :
    onLine n x = .error e ↔ x = .error e.cause ∧ e.line = some n := by
  obtain ⟨cause, line⟩ := e
  cases x with
  | ok a => simp [onLine]
  | error c => simp [onLine, eq_comm]

end Blame

/-! ## All errors -/

/-- Every error of a computation has a property. -/
def Raises {ε α : Type} (P : ε → Prop) (x : Except ε α) : Prop := ∀ e, x = .error e → P e

namespace Raises

variable {ε α β : Type} {P : ε → Prop} {x : Except ε α}

theorem ok {a : α} : Raises P (.ok a) := nofun

theorem error {e : ε} (h : P e) : Raises P (.error e : Except ε α) := by
  rintro _ ⟨⟩
  exact h

theorem bind {f : α → Except ε β} (hx : Raises P x) (hf : ∀ a, x = .ok a → Raises P (f a)) :
    Raises P (x >>= f) := by
  intro e he
  rcases bind_error_iff.mp he with he | ⟨a, ha, he⟩
  · exact hx e he
  · exact hf a ha e he

theorem map {g : α → β} (hx : Raises P x) : Raises P (g <$> x) := by
  cases x with
  | ok a => exact ok
  | error e => exact error (hx e rfl)

theorem mono {Q : ε → Prop} (hx : Raises P x) (h : ∀ e, P e → Q e) : Raises Q x :=
  fun e he => h e (hx e he)

theorem guard {p : Prop} [Decidable p] {e : ε} (he : P e) (hx : ¬ p → Raises P x) :
    Raises P (if p then throw e else x) := by
  by_cases hp : p
  · rw [if_pos hp]
    exact error he
  · rw [if_neg hp]
    exact hx hp

theorem mapM {f : α → Except ε β} {xs : List α} (hf : ∀ x ∈ xs, Raises P (f x)) :
    Raises P (xs.mapM f) := by
  induction xs with
  | nil => exact ok
  | cons x xs ih =>
    rw [List.mapM_cons]
    refine bind (hf x List.mem_cons_self) fun y _ => ?_
    exact bind (ih fun x hx => hf x (List.mem_cons_of_mem _ hx)) fun ys _ => ok

theorem onLine {n : Nat} {P : Cause → Prop} {x : Except Cause α} (hx : Raises P x) :
    Raises (fun e => P e.cause) (onLine n x) := fun e he => hx e.cause (onLine_error_iff.mp he).1

end Raises

theorem encoded_raises {α : Type} {x : Except EncodeError α} :
    Raises (fun c => ∃ e, c = .encoding e) (encoded x) := by
  intro c hc
  obtain ⟨e, -, rfl⟩ := encoded_error_iff.mp hc
  exact ⟨e, rfl⟩

/-! ## Tables -/

section Tables

variable {α β : Type} [BEq α] [LawfulBEq α] {table : List (α × β)} {a : α} {b : β}

theorem mem_of_lookup (h : table.lookup a = some b) : (a, b) ∈ table := by
  obtain ⟨before, after, rfl, -⟩ := List.lookup_eq_some_iff.mp h
  exact List.mem_append_right before List.mem_cons_self

/-- **A table with one entry for each key** is looked up by its entries. -/
theorem lookup_iff_mem (hkeys : (table.map Prod.fst).Nodup) :
    table.lookup a = some b ↔ (a, b) ∈ table := by
  refine ⟨mem_of_lookup, fun h => ?_⟩
  obtain ⟨before, after, rfl⟩ := List.append_of_mem h
  refine List.lookup_eq_some_iff.mpr ⟨before, after, rfl, fun s hs => ?_⟩
  rw [List.map_append, List.map_cons, List.nodup_append] at hkeys
  rw [bne_iff_ne]
  exact (hkeys.2.2 s.1 (List.mem_map_of_mem hs) a List.mem_cons_self).symm

end Tables

end Ia32
