import Ia32.Width

/-!
# Reading bytes one at a time

What is read from a string of bytes is a tree: it is done, or refuses what it has read, or asks
for the next byte and goes on as that byte says. Such a reader cannot look ahead, and does not
know what follows the last byte that it asks for.

* `Reading`: the trees, a monad; `Reading.byte`, `Reading.value`: a byte, a value of a width;
* `Reading.run`: a reading of a string of bytes; `Outcome`: how it ends;
* `Reading.Reads`: a reading takes given bytes, all of them, and is done with a result;
* `reads_pure`, `reads_bind`, `reads_bytes`, `reads_ofOption`: the readings by their parts;
* `Reads.runFrom`, `reads_of_runFrom`: **a reading of a string is done exactly if it takes a
  beginning of the string**; `Reads.runFrom_bind`, `Outcome.later`, `runFrom_add`: what is read
  after it, from wherever it starts;
* `Reading.Refuses`: a reading refuses given bytes; `refuses_bind`: by its parts; `Refuses.run`,
  `refuses_of_run`: a reading of a string is refused exactly if it refuses a beginning of it;
* `Outcome.within`, `run_take`: **the first bytes of a string are read as the string is**, if the
  reading needs no more than those;
* `Reading.Yields`: what holds of every result of a reading; `Yields.bind`: one part at a time.
-/

set_option autoImplicit false

namespace Ia32

/-! ## Readings -/

/-- A reader of bytes. -/
inductive Reading (α : Type) where
  | done (a : α)
  | refuse
  | next (k : Byte → Reading α)

/-- How a reading of a string of bytes ends. -/
inductive Outcome (α : Type) where
  /-- It is done, having read so many bytes. -/
  | done (a : α) (length : Nat)
  /-- It refuses what it has read, so many bytes. -/
  | refused (length : Nat)
  /-- It asks for more bytes than there are. -/
  | truncated
  deriving DecidableEq

/-- How a reading ends that may look at so many bytes only. -/
def Outcome.within {α : Type} (n : Nat) : Outcome α → Outcome α
  | done a k => if k ≤ n then done a k else truncated
  | refused k => if k ≤ n then refused k else truncated
  | truncated => truncated

/-- How a reading ends that starts after so many bytes more. -/
def Outcome.later {α : Type} (n : Nat) : Outcome α → Outcome α
  | done a k => done a (k + n)
  | refused k => refused (k + n)
  | truncated => truncated

namespace Reading

variable {α β : Type}

/-- A reading, and one that depends on its result. -/
def bind : Reading α → (α → Reading β) → Reading β
  | done a, f => f a
  | refuse, _ => refuse
  | next k, f => next fun b => (k b).bind f

instance : Monad Reading where
  pure := done
  bind := bind

/-- The next byte. -/
def byte : Reading Byte := next done

/-- So many bytes. -/
def bytes : Nat → Reading (List Byte)
  | 0 => done []
  | n + 1 => do
    let b ← byte
    return b :: (← bytes n)

/-- A value of a width, lowest byte first. -/
def value (w : Width) : Reading Long := ofLittleEndian <$> bytes w.bytes

/-- The result, or a refusal where there is none. -/
def ofOption : Option α → Reading α
  | some a => done a
  | none => refuse

/-- Reads a string of bytes, after a number of bytes that have been read before. -/
def runFrom (pos : Nat) : Reading α → List Byte → Outcome α
  | done a, _ => .done a pos
  | refuse, _ => .refused pos
  | next _, [] => .truncated
  | next k, b :: bs => (k b).runFrom (pos + 1) bs

/-- Reads a string of bytes. -/
def run (r : Reading α) (bs : List Byte) : Outcome α := r.runFrom 0 bs

/-! ## Bytes taken -/

/-- A reading takes some bytes, all of them and no more, and gives a result. -/
inductive Reads : Reading α → List Byte → α → Prop where
  | done (a : α) : Reads (done a) [] a
  | next {k : Byte → Reading α} {b : Byte} {bs : List Byte} {a : α} (h : Reads (k b) bs a) :
      Reads (next k) (b :: bs) a

@[simp] theorem reads_pure {bs : List Byte} {a b : α} :
    (pure a : Reading α).Reads bs b ↔ bs = [] ∧ a = b := by
  constructor
  · intro h
    cases h
    exact ⟨rfl, rfl⟩
  · rintro ⟨rfl, rfl⟩
    exact .done _

theorem reads_next {k : Byte → Reading α} {bs : List Byte} {a : α} :
    (next k).Reads bs a ↔ ∃ b cs, bs = b :: cs ∧ (k b).Reads cs a := by
  constructor
  · intro h
    cases h with
    | next h => exact ⟨_, _, rfl, h⟩
  · rintro ⟨b, cs, rfl, h⟩
    exact .next h

@[simp] theorem not_reads_refuse {bs : List Byte} {a : α} : ¬ (refuse : Reading α).Reads bs a :=
  nofun

@[simp] theorem reads_byte {bs : List Byte} {b : Byte} : byte.Reads bs b ↔ bs = [b] := by
  constructor
  · intro h
    obtain ⟨c, cs, rfl, hc⟩ := reads_next.mp h
    obtain ⟨rfl, rfl⟩ := reads_pure.mp hc
    rfl
  · rintro rfl
    exact .next (.done b)

/-- **One reading after another** takes the bytes of the one and then those of the other. -/
theorem reads_bind {r : Reading α} {f : α → Reading β} {bs : List Byte} {b : β} :
    (r >>= f).Reads bs b ↔ ∃ a cs ds, bs = cs ++ ds ∧ r.Reads cs a ∧ (f a).Reads ds b := by
  constructor
  · intro h
    induction r generalizing bs with
    | done a => exact ⟨a, [], bs, rfl, .done a, h⟩
    | refuse => exact absurd h not_reads_refuse
    | next k ih =>
      obtain ⟨c, cs, rfl, hc⟩ := reads_next.mp h
      obtain ⟨a, ds, es, rfl, ha, hb⟩ := ih c hc
      exact ⟨a, c :: ds, es, rfl, .next ha, hb⟩
  · rintro ⟨a, cs, ds, rfl, ha, hb⟩
    induction ha with
    | done a => exact hb
    | next _ ih => exact .next (ih hb)

theorem Reads.bind {r : Reading α} {f : α → Reading β} {bs cs : List Byte} {a : α} {b : β}
    (ha : r.Reads bs a) (hb : (f a).Reads cs b) : (r >>= f).Reads (bs ++ cs) b :=
  reads_bind.mpr ⟨a, bs, cs, rfl, ha, hb⟩

theorem Reads.map {r : Reading α} {bs : List Byte} {a : α} (h : r.Reads bs a) (f : α → β) :
    (r >>= fun a => pure (f a)).Reads bs (f a) := by
  have hf : (pure (f a) : Reading β).Reads [] (f a) := reads_pure.mpr ⟨rfl, rfl⟩
  rw [← List.append_nil bs]
  exact h.bind hf

theorem Reads.cons_bind {r : Reading α} {f : α → Reading β} {b : Byte} {bs : List Byte} {a : α}
    {c : β} (ha : r.Reads [b] a) (hc : (f a).Reads bs c) : (r >>= f).Reads (b :: bs) c :=
  ha.bind hc

/-- What is done with a result does not matter to what is taken. -/
theorem exists_reads_map_iff {r : Reading α} {f : α → β} {bs : List Byte} :
    (∃ b, (r >>= fun a => pure (f a)).Reads bs b) ↔ ∃ a, r.Reads bs a := by
  constructor
  · rintro ⟨b, h⟩
    obtain ⟨a, cs, ds, rfl, ha, hb⟩ := reads_bind.mp h
    obtain ⟨rfl, -⟩ := reads_pure.mp hb
    rw [List.append_nil]
    exact ⟨a, ha⟩
  · rintro ⟨a, ha⟩
    exact ⟨f a, ha.map f⟩

@[simp] theorem reads_bytes {n : Nat} {bs cs : List Byte} :
    (bytes n).Reads bs cs ↔ bs = cs ∧ bs.length = n := by
  induction n generalizing bs cs with
  | zero =>
    rw [bytes, show done ([] : List Byte) = pure [] from rfl, reads_pure, List.length_eq_zero_iff]
    constructor
    · rintro ⟨rfl, rfl⟩
      exact ⟨rfl, rfl⟩
    · rintro ⟨rfl, rfl⟩
      exact ⟨rfl, rfl⟩
  | succ n ih =>
    simp only [bytes, reads_bind, reads_byte, reads_pure, ih]
    constructor
    · rintro ⟨b, _, ds, rfl, rfl, es, _, _, rfl, ⟨rfl, rfl⟩, rfl, rfl⟩
      simp
    · rintro ⟨rfl, h⟩
      obtain ⟨b, ds, rfl⟩ := List.exists_cons_of_length_eq_add_one h
      exact ⟨b, [b], ds, rfl, rfl, ds, ds, [], by simp, ⟨rfl, by simpa using h⟩, rfl, rfl⟩

@[simp] theorem reads_ofOption {o : Option α} {bs : List Byte} {a : α} :
    (ofOption o).Reads bs a ↔ bs = [] ∧ o = some a := by
  cases o with
  | none => simp [ofOption]
  | some b =>
    rw [ofOption, show done b = pure b from rfl, reads_pure, Option.some.injEq]

/-! ## Runs -/

/-- **What a reading takes does not depend on what follows.** -/
theorem Reads.runFrom {r : Reading α} {bs : List Byte} {a : α} (h : r.Reads bs a) (pos : Nat)
    (rest : List Byte) : r.runFrom pos (bs ++ rest) = .done a (pos + bs.length) := by
  induction h generalizing pos with
  | done a => rfl
  | next _ ih =>
    rw [List.cons_append, Reading.runFrom, ih, List.length_cons]
    congr 1
    omega

theorem Reads.run {r : Reading α} {bs : List Byte} {a : α} (h : r.Reads bs a)
    (rest : List Byte) : r.run (bs ++ rest) = .done a bs.length := by
  rw [Reading.run, h.runFrom, Nat.zero_add]

/-- **A reading after another** goes on where the other ends. -/
theorem Reads.runFrom_bind {r : Reading α} {a : α} {bs : List Byte} (h : r.Reads bs a)
    (f : α → Reading β) (pos : Nat) (rest : List Byte) :
    (r >>= f).runFrom pos (bs ++ rest) = (f a).runFrom (pos + bs.length) rest := by
  induction h generalizing pos with
  | done a => rfl
  | @next k b bs a _ ih =>
    calc (Reading.next k >>= f).runFrom pos (b :: bs ++ rest)
        = (k b >>= f).runFrom (pos + 1) (bs ++ rest) := rfl
      _ = (f a).runFrom (pos + 1 + bs.length) rest := ih (pos + 1)
      _ = (f a).runFrom (pos + (b :: bs).length) rest := by
        rw [List.length_cons, Nat.add_assoc, Nat.add_comm 1]

theorem runFrom_add (r : Reading α) (pos n : Nat) (bs : List Byte) :
    r.runFrom (pos + n) bs = (r.runFrom pos bs).later n := by
  induction r generalizing pos bs with
  | done a => rfl
  | refuse => rfl
  | next k ih =>
    cases bs with
    | nil => rfl
    | cons b bs => rw [runFrom, runFrom, Nat.add_right_comm, ih]

/-- **A reading that is done has taken a beginning of the string.** -/
theorem reads_of_runFrom {r : Reading α} {pos n : Nat} {bs : List Byte} {a : α}
    (h : r.runFrom pos bs = .done a n) :
    ∃ cs rest, bs = cs ++ rest ∧ r.Reads cs a ∧ n = pos + cs.length := by
  induction r generalizing pos bs with
  | done b =>
    cases h
    exact ⟨[], bs, rfl, .done a, rfl⟩
  | refuse => cases h
  | next k ih =>
    cases bs with
    | nil => cases h
    | cons b bs =>
      obtain ⟨cs, rest, rfl, hr, rfl⟩ := ih b h
      refine ⟨b :: cs, rest, rfl, .next hr, ?_⟩
      rw [List.length_cons]
      omega

theorem reads_of_run {r : Reading α} {n : Nat} {bs : List Byte} {a : α}
    (h : r.run bs = .done a n) : ∃ cs rest, bs = cs ++ rest ∧ r.Reads cs a ∧ n = cs.length := by
  obtain ⟨cs, rest, hbs, hr, hn⟩ := reads_of_runFrom h
  exact ⟨cs, rest, hbs, hr, by omega⟩

/-! ## Bytes refused -/

/-- A reading refuses some bytes, having asked for all of them and no more. -/
inductive Refuses : Reading α → List Byte → Prop where
  | refuse : Refuses refuse []
  | next {k : Byte → Reading α} {b : Byte} {bs : List Byte} (h : Refuses (k b) bs) :
      Refuses (next k) (b :: bs)

theorem not_refuses_pure {a : α} {bs : List Byte} : ¬ (pure a : Reading α).Refuses bs := nofun

theorem refuses_refuse {bs : List Byte} (h : (refuse : Reading α).Refuses bs) : bs = [] := by
  cases h
  rfl

/-- **One reading after another** refuses what the one refuses, and what the other refuses after
the bytes of the one. -/
theorem refuses_bind {r : Reading α} {f : α → Reading β} {bs : List Byte}
    (h : (r >>= f).Refuses bs) :
    r.Refuses bs ∨ ∃ a cs ds, bs = cs ++ ds ∧ r.Reads cs a ∧ (f a).Refuses ds := by
  induction r generalizing bs with
  | done a => exact .inr ⟨a, [], bs, rfl, .done a, h⟩
  | refuse =>
    rw [refuses_refuse (α := β) h]
    exact .inl .refuse
  | next k ih =>
    obtain ⟨b, cs, rfl, hb⟩ : ∃ b cs, bs = b :: cs ∧ (k b >>= f).Refuses cs := by
      cases h with
      | next h => exact ⟨_, _, rfl, h⟩
    rcases ih b hb with hr | ⟨a, cs, ds, rfl, ha, hf⟩
    · exact .inl (.next hr)
    · exact .inr ⟨a, b :: cs, ds, rfl, .next ha, hf⟩

theorem Refuses.runFrom {r : Reading α} {bs : List Byte} (h : r.Refuses bs) (pos : Nat)
    (rest : List Byte) : r.runFrom pos (bs ++ rest) = .refused (pos + bs.length) := by
  induction h generalizing pos with
  | refuse => rfl
  | next _ ih =>
    rw [List.cons_append, Reading.runFrom, ih, List.length_cons]
    congr 1
    omega

theorem Refuses.run {r : Reading α} {bs : List Byte} (h : r.Refuses bs) (rest : List Byte) :
    r.run (bs ++ rest) = .refused bs.length := by
  rw [Reading.run, h.runFrom, Nat.zero_add]

theorem refuses_of_runFrom {r : Reading α} {pos n : Nat} {bs : List Byte}
    (h : r.runFrom pos bs = .refused n) :
    ∃ cs rest, bs = cs ++ rest ∧ r.Refuses cs ∧ n = pos + cs.length := by
  induction r generalizing pos bs with
  | done a => cases h
  | refuse =>
    cases h
    exact ⟨[], bs, rfl, .refuse, rfl⟩
  | next k ih =>
    cases bs with
    | nil => cases h
    | cons b bs =>
      obtain ⟨cs, rest, rfl, hr, rfl⟩ := ih b h
      refine ⟨b :: cs, rest, rfl, .next hr, ?_⟩
      rw [List.length_cons]
      omega

theorem refuses_of_run {r : Reading α} {n : Nat} {bs : List Byte} (h : r.run bs = .refused n) :
    ∃ cs rest, bs = cs ++ rest ∧ r.Refuses cs ∧ n = cs.length := by
  obtain ⟨cs, rest, hbs, hr, hn⟩ := refuses_of_runFrom h
  exact ⟨cs, rest, hbs, hr, by omega⟩

/-! ## Beginnings of strings -/

theorem within_runFrom_of_lt (r : Reading α) {pos n : Nat} (bs : List Byte) (h : n < pos) :
    (r.runFrom pos bs).within n = .truncated := by
  induction r generalizing pos bs with
  | done a => exact if_neg (by omega)
  | refuse => exact if_neg (by omega)
  | next k ih =>
    cases bs with
    | nil => rfl
    | cons b bs => exact ih b bs (by omega)

theorem runFrom_take (r : Reading α) (pos n : Nat) (bs : List Byte) :
    r.runFrom pos (bs.take n) = (r.runFrom pos bs).within (pos + n) := by
  induction r generalizing pos n bs with
  | done a => exact (if_pos (by omega)).symm
  | refuse => exact (if_pos (by omega)).symm
  | next k ih =>
    cases bs with
    | nil =>
      rw [List.take_nil]
      rfl
    | cons b bs =>
      cases n with
      | zero => exact (within_runFrom_of_lt (k b) bs (Nat.lt_succ_self pos)).symm
      | succ n =>
        rw [List.take_succ_cons, runFrom, ih, runFrom, Nat.add_right_comm, Nat.add_assoc]

/-- **The first bytes of a string** are read as the string is, if the reading needs no more. -/
theorem run_take (r : Reading α) (n : Nat) (bs : List Byte) :
    r.run (bs.take n) = (r.run bs).within n := by
  rw [run, runFrom_take, Nat.zero_add, run]

/-! ## All results -/

/-- Every result of a reading has a property. -/
def Yields (r : Reading α) (P : α → Prop) : Prop := ∀ bs a, r.Reads bs a → P a

theorem Yields.pure {P : α → Prop} {a : α} (h : P a) : (Pure.pure a : Reading α).Yields P := by
  intro bs b hb
  obtain ⟨-, rfl⟩ := reads_pure.mp hb
  exact h

theorem Yields.refuse {P : α → Prop} : (Reading.refuse : Reading α).Yields P :=
  fun _ _ h => absurd h not_reads_refuse

theorem Yields.bind {r : Reading α} {f : α → Reading β} {P : α → Prop} {Q : β → Prop}
    (hr : r.Yields P) (hf : ∀ a, P a → (f a).Yields Q) : (r >>= f).Yields Q := by
  intro bs b h
  obtain ⟨a, cs, ds, -, ha, hb⟩ := reads_bind.mp h
  exact hf a (hr cs a ha) ds b hb

theorem Yields.mono {r : Reading α} {P Q : α → Prop} (hr : r.Yields P) (h : ∀ a, P a → Q a) :
    r.Yields Q := fun bs a ha => h a (hr bs a ha)

theorem Yields.trivial {r : Reading α} : r.Yields fun _ => True := fun _ _ _ => True.intro

end Reading

end Ia32
