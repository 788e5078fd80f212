import Ia32.Machine.Memory
import Ia32.Proofs.Bytes
import Mathlib.Tactic.Common

/-!
# Bytes in memory

* `getElem?_storeBytes`: the bytes after others have been put in place;
* `Memory.size_store`, **`Memory.window_store`**: what is put in place is found there, and
  `Memory.getElem?_store`: the other bytes stay as they were;
* `Memory.window_of_window`: a window inside another one;
* `Memory.read_congr`, **`Memory.read_store`**: a value is that of its bytes, and is read back;
* `Memory.Holds`: values one after the other; **`Memory.holds_of_window`**: their bytes hold them.
-/

set_option autoImplicit false

namespace Ia32

theorem size_storeBytes (mem : Array Byte) (start : Nat) (bs : List Byte) :
    (storeBytes mem start bs).size = mem.size := by
  induction bs generalizing mem start with
  | nil => rfl
  | cons b bs ih => rw [storeBytes, ih, Array.size_setIfInBounds]

theorem getElem?_storeBytes_of_lt (mem : Array Byte) {start i : Nat} (bs : List Byte)
    (hi : i < start) : (storeBytes mem start bs)[i]? = mem[i]? := by
  induction bs generalizing mem start with
  | nil => rfl
  | cons b bs ih =>
    rw [storeBytes, ih _ (by omega), Array.getElem?_setIfInBounds_ne (by omega)]

theorem getElem?_storeBytes_of_ge (mem : Array Byte) {start i : Nat} (bs : List Byte)
    (hi : start + bs.length ≤ i) : (storeBytes mem start bs)[i]? = mem[i]? := by
  induction bs generalizing mem start with
  | nil => rfl
  | cons b bs ih =>
    rw [List.length_cons] at hi
    rw [storeBytes, ih _ (by omega), Array.getElem?_setIfInBounds_ne (by omega)]

theorem getElem?_storeBytes (mem : Array Byte) {start i : Nat} {bs : List Byte} (hi : i < bs.length)
    (hsize : start + bs.length ≤ mem.size) :
    (storeBytes mem start bs)[start + i]? = bs[i]? := by
  induction bs generalizing mem start i with
  | nil => cases hi
  | cons b bs ih =>
    rw [List.length_cons] at hi hsize
    cases i with
    | zero =>
      have hstart : start < mem.size := by omega
      change (storeBytes (mem.setIfInBounds start b) (start + 1) bs)[start]? = some b
      rw [getElem?_storeBytes_of_lt _ _ (Nat.lt_succ_self start),
        Array.getElem?_setIfInBounds_self_of_lt hstart]
    | succ i =>
      have hsize : start + 1 + bs.length ≤ (mem.setIfInBounds start b).size := by
        rw [Array.size_setIfInBounds]
        omega
      rw [storeBytes, show start + (i + 1) = start + 1 + i by omega, ih _ (by omega) hsize]
      rfl

namespace Memory

@[simp] theorem size_store (m : Memory) (address : Long) (bs : List Byte) :
    (m.store address bs).size = m.size := size_storeBytes _ _ _

theorem window_eq (m : Memory) (address : Long) (count : Nat) :
    m.window address count = (m.bytes.toList.drop address.toNat).take count := by
  rw [window, Array.toList_extract, List.extract_eq_take_drop]
  congr 1
  omega

/-- **What is put in place is found there.** -/
theorem window_store (m : Memory) {address : Long} {bs : List Byte}
    (h : m.covers address bs.length = true) :
    (m.store address bs).window address bs.length = bs := by
  have hsize : address.toNat + bs.length ≤ m.bytes.size := of_decide_eq_true h
  rw [window_eq]
  apply List.ext_getElem?
  intro i
  by_cases hi : i < bs.length
  · rw [List.getElem?_take_of_lt hi, List.getElem?_drop, store, Array.getElem?_toList,
      getElem?_storeBytes _ hi hsize]
  · rw [List.getElem?_eq_none (by simp; omega), List.getElem?_eq_none (by omega)]

theorem window_of_window (m : Memory) {first address : Long} {code : List Byte} {offset : Nat}
    (h : m.window first code.length = code) (hoffset : offset ≤ code.length)
    (haddress : address.toNat = first.toNat + offset) (count : Nat) :
    ∃ rest, m.window address count = (code.drop offset ++ rest).take count := by
  rw [window_eq] at h
  have hsplit : m.bytes.toList.drop first.toNat =
      code ++ (m.bytes.toList.drop first.toNat).drop code.length := by
    conv_lhs => rw [← List.take_append_drop code.length (m.bytes.toList.drop first.toNat), h]
  refine ⟨(m.bytes.toList.drop first.toNat).drop code.length, ?_⟩
  rw [window_eq, haddress, ← List.drop_drop, hsplit, List.drop_append_of_le_length hoffset,
    List.drop_left]

theorem getElem?_store (m : Memory) {address : Long} {bs : List Byte} {a : Nat}
    (ha : a < address.toNat ∨ address.toNat + bs.length ≤ a) :
    (m.store address bs).bytes[a]? = m.bytes[a]? := by
  rcases ha with ha | ha
  · exact getElem?_storeBytes_of_lt _ _ ha
  · exact getElem?_storeBytes_of_ge _ _ ha

/-! ## Values -/

theorem covers_of_read {m : Memory} {address : Long} {w : Width} {v : Long}
    (h : m.read address w = .ok v) : m.covers address w.bytes = true := by
  by_contra hc
  rw [read, if_neg hc] at h
  cases h

theorem read_congr {m m' : Memory} {address : Long} {w : Width} (hsize : m'.size = m.size)
    (h : ∀ k < w.bytes, m'.bytes[address.toNat + k]? = m.bytes[address.toNat + k]?) :
    m'.read address w = m.read address w := by
  have hwindow : m'.window address w.bytes = m.window address w.bytes := by
    rw [window_eq, window_eq]
    apply List.ext_getElem?
    intro k
    by_cases hk : k < w.bytes
    · rw [List.getElem?_take_of_lt hk, List.getElem?_take_of_lt hk, List.getElem?_drop,
        List.getElem?_drop, Array.getElem?_toList, Array.getElem?_toList, h k hk]
    · rw [List.getElem?_eq_none (by simp; omega), List.getElem?_eq_none (by simp; omega)]
  rw [read, read, covers, covers, hsize, hwindow]

/-- **What is put in place is read back**, as far as the width goes. -/
theorem read_store (m : Memory) {address : Long} {w : Width} (v : Long)
    (h : m.covers address w.bytes = true) :
    (m.store address (littleEndian w.bytes v)).read address w = .ok (v &&& w.mask) := by
  have hlength := length_littleEndian w.bytes v
  have hcovers : m.covers address (littleEndian w.bytes v).length = true := by
    rw [hlength]
    exact h
  have hwindow := m.window_store hcovers
  rw [hlength] at hwindow
  rw [read, covers, size_store, hwindow, ofLittleEndian_littleEndian]
  exact if_pos h

/-- A value lies where its bytes lie in a part of memory that is known. -/
theorem read_of_window {m : Memory} {first address : Long} {code bs rest : List Byte}
    {offset : Nat} {w : Width} (hfits : first.toNat + code.length ≤ m.size)
    (hcode : m.window first code.length = code) (hdrop : code.drop offset = bs ++ rest)
    (hbs : bs.length = w.bytes) (haddress : address.toNat = first.toNat + offset) :
    m.read address w = .ok (ofLittleEndian bs) := by
  have hpos := w.bytes_pos
  have hlength := congrArg List.length hdrop
  rw [List.length_drop, List.length_append, hbs] at hlength
  obtain ⟨tail, hwindow⟩ := m.window_of_window hcode (by omega) haddress w.bytes
  have hcovers : m.covers address w.bytes = true := decide_eq_true (by omega)
  rw [hdrop, List.append_assoc, ← hbs, List.take_left] at hwindow
  rw [read, if_pos hcovers, ← hbs, hwindow]

end Memory

/-! ## Values one after the other -/

/-- Values of a width lie in memory one after the other. -/
def Memory.Holds (mem : Memory) (w : Width) (address : Long) (vs : List Long) : Prop :=
  ∀ k v, vs[k]? = some v → mem.read (address + BitVec.ofNat 32 (k * w.bytes)) w = .ok v

namespace Memory

variable {mem : Memory} {w : Width} {address : Long} {v : Long} {vs vs' : List Long}

theorem holds_nil : mem.Holds w address [] := by
  intro k v h
  simp at h

theorem holds_append_iff : mem.Holds w address (vs ++ vs') ↔ mem.Holds w address vs ∧
    mem.Holds w (address + BitVec.ofNat 32 (vs.length * w.bytes)) vs' := by
  have hnext : ∀ k, address + BitVec.ofNat 32 (vs.length * w.bytes) +
      BitVec.ofNat 32 (k * w.bytes) = address + BitVec.ofNat 32 ((vs.length + k) * w.bytes) := by
    intro k
    rw [BitVec.add_assoc, ← BitVec.ofNat_add, ← Nat.add_mul]
  constructor
  · intro h
    refine ⟨fun k v hk => h k v ?_, fun k v hk => ?_⟩
    · rw [List.getElem?_append_left (List.getElem?_eq_some_iff.mp hk).1, hk]
    · rw [hnext]
      exact h _ v (by rw [List.getElem?_append_right (by omega), Nat.add_sub_cancel_left, hk])
  · rintro ⟨h, h'⟩ k v hk
    by_cases hlt : k < vs.length
    · rw [List.getElem?_append_left hlt] at hk
      exact h k v hk
    · rw [List.getElem?_append_right (by omega)] at hk
      have hread := h' _ v hk
      rwa [hnext, Nat.add_sub_cancel' (by omega)] at hread

theorem holds_singleton_iff : mem.Holds w address [v] ↔ mem.read address w = .ok v := by
  constructor
  · intro h
    simpa using h 0 v rfl
  · intro h k v' hk
    cases k with
    | zero =>
      cases hk
      simpa using h
    | succ k => simp at hk

/-- **The bytes of values** in a part of memory that is known hold the values. -/
theorem holds_of_window {first : Long} {code rest : List Byte} {offset : Nat} {ns : List Int}
    (hsize : mem.size < 2 ^ 32) (hfits : first.toNat + code.length ≤ mem.size)
    (hcode : mem.window first code.length = code)
    (hdrop : code.drop offset = ns.flatMap w.immediate ++ rest)
    (haddress : address.toNat = first.toNat + offset) :
    mem.Holds w address (ns.map w.truncate) := by
  induction ns generalizing address offset with
  | nil => exact holds_nil
  | cons n ns ih =>
    rw [List.flatMap_cons, List.append_assoc] at hdrop
    have hread := read_of_window hfits hcode hdrop (w.length_immediate n) haddress
    rw [ofLittleEndian_immediate] at hread
    have hcovers : address.toNat + w.bytes ≤ mem.size := of_decide_eq_true (covers_of_read hread)
    have hnext : code.drop (offset + w.bytes) = ns.flatMap w.immediate ++ rest := by
      rw [← List.drop_drop, hdrop, List.drop_left' (w.length_immediate n)]
    -- the next address does not wrap, since this value lies in memory
    rw [List.map_cons, ← List.singleton_append, holds_append_iff, holds_singleton_iff]
    refine ⟨hread, ih hnext ?_⟩
    rw [List.length_singleton, Nat.one_mul, toNat_add_ofNat (by omega)]
    omega

end Memory

end Ia32
