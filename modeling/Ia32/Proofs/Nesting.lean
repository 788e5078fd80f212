import Ia32.Proofs.Footprint

/-!
# Nested uses of the stack

* `StackUse`: a value put on the stack or taken off it; `StackUse.run`: several of them, and the
  values that are taken off;
* `StackUse.WellNested`: every value that is put on the stack is taken off it again, the last first;
  the values are those that should be found;
* `StackUse.PushesSucceed`: no value that is to be put on the stack fails to be; `StackUse.Reaches`,
  `StackUse.span`: the machines on the way, and the bytes over which the stack pointer moves;
* `StackUse.run_append`: one part after another; `StackUse.pop_of_push`: one value put on the stack
  and found again, if what comes between has changed nothing but what is below;
* `StackUse.pushesSucceed_of_room`: values can be put on the stack if there is room for them;
* **`StackUse.wellNested_run`**: every value is found again, and only the bytes that are spanned
  have changed.
-/

set_option autoImplicit false

namespace Ia32

/-- A use of the stack. -/
inductive StackUse where
  | push (w : Width) (v : Long)
  | pop (w : Width)
  deriving DecidableEq

namespace StackUse

/-! ## Sequences -/

/-- Uses of the stack, one after the other. It gives the values that are taken off. -/
def run : List StackUse → Action (List Long)
  | [] => return []
  | push w v :: us => do
    Action.push w v
    run us
  | pop w :: us => do
    let v ← Action.pop w
    let vs ← run us
    return v :: vs

/-- Uses of the stack that are nested: after a value has been put on it, and what follows is nested,
a value of the same width is taken off. The values are those that should be found, each cut down to
its width. -/
inductive WellNested : List StackUse → List Long → Prop where
  | nil : WellNested [] []
  | nest {w : Width} {v : Long} {us us' : List StackUse} {vs vs' : List Long}
      (h : WellNested us vs) (h' : WellNested us' vs') :
      WellNested (push w v :: us ++ pop w :: us') (vs ++ (v &&& w.mask) :: vs')

/-- Whenever a value is to be put on the stack, that succeeds. -/
def PushesSucceed (us : List StackUse) (m : Machine) : Prop :=
  ∀ before w v, before ++ [push w v] <+: us → ∀ vs m₁, run before m = .ok vs m₁ →
    ∃ m₂, Action.push w v m₁ = .ok () m₂

/-- Some of the first uses lead to a machine. -/
def Reaches (us : List StackUse) (m m₁ : Machine) : Prop :=
  ∃ before vs, before <+: us ∧ run before m = .ok vs m₁

/-- The bytes between the lowest stack pointer that is reached and the first one. -/
def span (us : List StackUse) (m : Machine) : Set Nat :=
  {a | a < (m.get .esp).toNat ∧ ∃ m₁, Reaches us m m₁ ∧ (m₁.get .esp).toNat ≤ a}

variable {us us' : List StackUse} {vs vs' : List Long} {w : Width} {v : Long} {m m₁ m₂ : Machine}

/-! ## One part after another -/

theorem run_push (h : Action.push w v m = .ok () m₁) : run [push w v] m = .ok [] m₁ :=
  Action.ok_bind_iff.mpr ⟨(), m₁, h, rfl⟩

theorem run_pop (h : Action.pop w m = .ok v m₁) : run [pop w] m = .ok [v] m₁ :=
  Action.ok_bind_iff.mpr ⟨v, m₁, h, rfl⟩

theorem run_append (h : run us m = .ok vs m₁) (h' : run us' m₁ = .ok vs' m₂) :
    run (us ++ us') m = .ok (vs ++ vs') m₂ := by
  induction us generalizing m vs with
  | nil =>
    cases h
    exact h'
  | cons u us ih =>
    cases u with
    | push w v =>
      obtain ⟨_, m₃, hpush, hrest⟩ := Action.ok_bind_iff.mp h
      exact Action.ok_bind_iff.mpr ⟨_, m₃, hpush, ih hrest⟩
    | pop w =>
      obtain ⟨v, m₃, hpop, hrest⟩ := Action.ok_bind_iff.mp h
      obtain ⟨vs, _, hrest, ⟨⟩⟩ := Action.ok_bind_iff.mp hrest
      refine Action.ok_bind_iff.mpr ⟨v, m₃, hpop, ?_⟩
      exact Action.ok_bind_iff.mpr ⟨_, m₂, ih hrest, rfl⟩

theorem PushesSucceed.append_left (h : PushesSucceed (us ++ us') m) : PushesSucceed us m :=
  fun before w v hbefore => h before w v (hbefore.trans (List.prefix_append us us'))

theorem PushesSucceed.append_right (h : PushesSucceed (us ++ us') m) (hrun : run us m = .ok vs m₁) :
    PushesSucceed us' m₁ := by
  intro before w v hbefore vs' m₂ hrun'
  refine h (us ++ before) w v ?_ _ m₂ (run_append hrun hrun')
  rw [List.append_assoc]
  exact (List.prefix_append_right_inj us).mpr hbefore

theorem Reaches.append_left (h : Reaches us m m₁) : Reaches (us ++ us') m m₁ := by
  obtain ⟨before, vs, hbefore, hrun⟩ := h
  exact ⟨before, vs, hbefore.trans (List.prefix_append us us'), hrun⟩

theorem Reaches.append_right (hrun : run us m = .ok vs m₁) (h : Reaches us' m₁ m₂) :
    Reaches (us ++ us') m m₂ := by
  obtain ⟨before, vs', hbefore, hrun'⟩ := h
  exact ⟨us ++ before, _, (List.prefix_append_right_inj us).mpr hbefore, run_append hrun hrun'⟩

theorem span_append_left : span us m ⊆ span (us ++ us') m := by
  rintro a ⟨ha, m₁, hreach, hle⟩
  exact ⟨ha, m₁, hreach.append_left, hle⟩

theorem span_append_right (hrun : run us m = .ok vs m₁)
    (hesp : (m₁.get .esp).toNat ≤ (m.get .esp).toNat) : span us' m₁ ⊆ span (us ++ us') m := by
  rintro a ⟨ha, m₂, hreach, hle⟩
  exact ⟨Nat.lt_of_lt_of_le ha hesp, m₂, hreach.append_right hrun, hle⟩

/-! ## One value -/

theorem pushed_subset_span (h : Action.push w v m = .ok () m₁) :
    (m.pushed m₁).memory ⊆ span [push w v] m :=
  fun _ ha => ⟨ha.2, m₁, ⟨_, [], List.prefix_rfl, run_push h⟩, ha.1⟩

/-- A value on the stack is found again, unless something has been changed that is not below it. -/
theorem pop_of_push {s : Set Nat} (h : Action.push w v m = .ok () m₁)
    (hesp : m₂.get .esp = m₁.get .esp) (hwithin : m₁.Within { memory := s } m₂)
    (hs : ∀ a ∈ s, a < (m₁.get .esp).toNat) :
    Action.pop w m₂ = .ok (v &&& w.mask) (m₂.raised w) ∧ (m₂.raised w).get .esp = m.get .esp := by
  have hread : m₂.memory.read (m₂.get .esp) w = .ok (v &&& w.mask) := by
    rw [hesp, ← Action.read_of_push h]
    refine Memory.read_congr hwithin.size fun k _ => hwithin.memory _ fun hk => ?_
    have hlt := hs _ hk
    omega
  refine ⟨Action.pop_ok_iff.mpr ⟨hread, rfl⟩, ?_⟩
  rw [m₂.get_raised, hesp, Action.get_esp_of_push h, BitVec.sub_add_cancel]

/-- What a value on the stack changes, with the uses before and after it is taken off. -/
theorem within_of_push {F : Footprint} {s s' : Set Nat} {m₃ : Machine} (hesp : .esp ∈ F.registers)
    (h : Action.push w v m = .ok () m₁) (hpushed : (m.pushed m₁).memory ⊆ F.memory)
    (hinner : m₁.Within { memory := s } m₂) (hs : s ⊆ F.memory)
    (houter : (m₂.raised w).Within { memory := s' } m₃) (hs' : s' ⊆ F.memory) : m.Within F m₃ := by
  have hm₁ : m.Within F m₁ := (Action.push_within h).2.mono (Machine.pushed_le hesp hpushed)
  have hm₂ : m₁.Within F m₂ := hinner.mono (Footprint.memory_le hs)
  have hraised : m₂.Within F (m₂.raised w) := Machine.within_set hesp _
  exact ((hm₁.trans hm₂).trans hraised).trans (houter.mono (Footprint.memory_le hs'))

/-! ## Room for the values -/

/-- How many bytes are put on the stack in all. -/
def room : List StackUse → Nat
  | [] => 0
  | push w _ :: us => w.bytes + room us
  | pop _ :: us => room us

/-- **Values can be put on the stack** if there is room for all of them below the stack pointer. -/
theorem pushesSucceed_of_room (hroom : room us ≤ (m.get .esp).toNat)
    (htop : (m.get .esp).toNat ≤ m.memory.size) (hsize : m.memory.size < 2 ^ 32) :
    PushesSucceed us m := by
  induction us generalizing m with
  | nil =>
    intro before w v hbefore
    simp at hbefore
  | cons u us ih =>
    intro before w v hprefix vs m₁ hrun
    cases before with
    | nil =>
      obtain ⟨rfl, -⟩ := List.cons_prefix_cons.mp hprefix
      cases hrun
      rw [room] at hroom
      have hle : w.bytes ≤ (m.get .esp).toNat := by omega
      refine ⟨_, Action.push_ok_iff.mpr ⟨hle, decide_eq_true ?_, rfl⟩⟩
      rw [Machine.toNat_sub_bytes hle]
      omega
    | cons u' before =>
      obtain ⟨rfl, hbefore⟩ := List.cons_prefix_cons.mp hprefix
      cases u' with
      | push w' v' =>
        obtain ⟨_, m₂, hpush, hrest⟩ := Action.ok_bind_iff.mp hrun
        obtain ⟨hesp, hwithin⟩ := Action.push_within hpush
        have hsize₂ := hwithin.size
        rw [room] at hroom
        exact ih (by omega) (by omega) (by omega) before w v hbefore vs m₁ hrest
      | pop w' =>
        obtain ⟨v', m₂, hpop, hrest⟩ := Action.ok_bind_iff.mp hrun
        obtain ⟨vs, _, hrest, ⟨⟩⟩ := Action.ok_bind_iff.mp hrest
        obtain ⟨hread, rfl⟩ := Action.pop_ok_iff.mp hpop
        -- What has been taken off lay in memory, so the stack pointer does not wrap.
        have hcovers : (m.get .esp).toNat + w'.bytes ≤ m.memory.size :=
          of_decide_eq_true (Memory.covers_of_read hread)
        have hesp : ((m.raised w').get .esp).toNat = (m.get .esp).toNat + w'.bytes := by
          rw [m.get_raised, Machine.toNat_add_bytes (by omega)]
        have hsize₂ : (m.raised w').memory.size = m.memory.size := rfl
        rw [room] at hroom
        exact ih (by omega) (by omega) (by omega) before w v hbefore vs m₁ hrest

/-! ## Nested uses -/

/-- **Nested uses of the stack** leave the stack pointer where it was, and the memory that they do
not span. -/
theorem wellNested_run (h : WellNested us vs) (hpush : PushesSucceed us m) :
    ∃ m', run us m = .ok vs m' ∧ m'.get .esp = m.get .esp ∧
      m.Within { memory := span us m } m' := by
  induction h generalizing m with
  | nil => exact ⟨m, rfl, rfl, .refl _ m⟩
  | @nest w v us us' vs vs' h h' ih ih' =>
    -- The value is put on the stack, the inner uses run, it is taken off, and the outer uses run.
    obtain ⟨m₁, hm₁⟩ := hpush [] w v (List.prefix_append [push w v] _) [] m rfl
    have hrest : PushesSucceed ([push w v] ++ (us ++ pop w :: us')) m := hpush
    have hinner := hrest.append_right (run_push hm₁)
    obtain ⟨m₂, hrun, hesp, hwithin⟩ := ih hinner.append_left
    obtain ⟨hpop, hback⟩ := pop_of_push hm₁ hesp hwithin fun a ha => ha.1
    have hthrough : run (push w v :: us ++ [pop w]) m = .ok (vs ++ [v &&& w.mask]) (m₂.raised w) :=
      run_append (run_append (run_push hm₁) hrun) (run_pop hpop)
    have hsplit : push w v :: us ++ pop w :: us' = push w v :: us ++ [pop w] ++ us' :=
      List.append_cons _ _ _
    rw [hsplit] at hpush ⊢
    obtain ⟨m₃, hrun', hesp', hwithin'⟩ := ih' (hpush.append_right hthrough)
    have hend : m₃.get .esp = m.get .esp := hesp'.trans hback
    refine ⟨m₃, ?_, hend, Machine.Within.of_get_esp ?_ hend⟩
    · rw [List.append_cons vs]
      exact run_append hthrough hrun'
    · have hlower := (Action.push_within hm₁).1
      have hfirst : (m.pushed m₁).memory ⊆ span (push w v :: us ++ [pop w] ++ us') m :=
        (pushed_subset_span hm₁).trans span_append_left
      have hspan : span us m₁ ⊆ span (push w v :: us ++ [pop w] ++ us') m :=
        (span_append_right (run_push hm₁) (by omega)).trans
          (span_append_left.trans span_append_left)
      have hspan' : span us' (m₂.raised w) ⊆ span (push w v :: us ++ [pop w] ++ us') m :=
        span_append_right hthrough (by rw [hback])
      exact within_of_push (F := ⟨{.esp}, _, ∅, False⟩) (Set.mem_singleton _) hm₁ hfirst hwithin
        hspan hwithin' hspan'

/-- A machine of 64 bytes whose stack is empty. -/
def emptyStack : Machine := (Machine.new 64).set .esp 64

/-- Two values of different widths in turn, above a third. -/
def twoDeep : List StackUse :=
  [push .long 0x11223344, push .word 0x15566, pop .word, push .byte 0x77, pop .byte, pop .long]

/-- What does not fit in the width is not found again. -/
theorem wellNested_run_twoDeep :
    WellNested twoDeep [0x5566, 0x77, 0x11223344] ∧ PushesSucceed twoDeep emptyStack ∧
      ∃ m', run twoDeep emptyStack = .ok [0x5566, 0x77, 0x11223344] m' ∧
        m'.get .esp = emptyStack.get .esp ∧
        emptyStack.Within { memory := span twoDeep emptyStack } m' := by
  have hbyte : WellNested [push .byte 0x77, pop .byte] [0x77] :=
    @WellNested.nest .byte 0x77 [] [] [] [] .nil .nil
  have hboth : WellNested [push .word 0x15566, pop .word, push .byte 0x77, pop .byte]
      [0x5566, 0x77] :=
    @WellNested.nest .word 0x15566 [] _ [] _ .nil hbyte
  have hnested : WellNested twoDeep [0x5566, 0x77, 0x11223344] :=
    @WellNested.nest .long 0x11223344 _ [] _ [] hboth .nil
  have hpush : PushesSucceed twoDeep emptyStack :=
    pushesSucceed_of_room (by decide) (by decide) (by decide)
  exact ⟨hnested, hpush, wellNested_run hnested hpush⟩

end StackUse

end Ia32
