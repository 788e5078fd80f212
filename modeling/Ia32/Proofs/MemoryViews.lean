import Ia32.Proofs.Memory
import Ia32.Proofs.Stack

/-!
# Views of memory

A value lies in memory byte by byte, its lowest byte first, and can be read in another width or at
another address than it was written.

* `getElem?_littleEndian`, `extractLsb'_ofLittleEndian`: the bytes of a value, and the value of
  bytes, one byte at a time;
* `IsValueAt`: the value of the bytes at an address; `Memory.isValueAt_of_read`: what is read;
* `Memory.getElem?_bytes_of_write`: all bytes after a value has been written;
* `Action.store_eq_write`: what an instruction writes; `Memory.readBytes_window`: a window that
  holds a value;
* **`Memory.views_exact`**: what is read after a value has been written, however the two overlap.
-/

set_option autoImplicit false

namespace Ia32

/-! ## Bytes and values -/

theorem getElem?_littleEndian (n : Nat) (v : Long) (k : Nat) :
    (littleEndian n v)[k]? = if k < n then some (v.extractLsb' (8 * k) 8) else none := by
  induction n generalizing v k with
  | zero => rfl
  | succ n ih =>
    cases k with
    | zero => simp [littleEndian, BitVec.setWidth_eq_extractLsb']
    | succ k =>
      have hshift : (v >>> 8).extractLsb' (8 * k) 8 = v.extractLsb' (8 * (k + 1)) 8 := by
        apply BitVec.eq_of_getLsbD_eq
        intro i hi
        rw [BitVec.getLsbD_extractLsb', BitVec.getLsbD_extractLsb', BitVec.getLsbD_ushiftRight,
          show 8 + (8 * k + i) = 8 * (k + 1) + i by omega]
      rw [littleEndian, List.getElem?_cons_succ, ih, hshift]
      simp only [Nat.add_lt_add_iff_right]

theorem extractLsb'_ofLittleEndian {bs : List Byte} {k : Nat} {b : Byte} (hb : bs[k]? = some b)
    (hk : k < 4) : (ofLittleEndian bs).extractLsb' (8 * k) 8 = b := by
  induction bs generalizing k with
  | nil => cases hb
  | cons c bs ih =>
    apply BitVec.eq_of_getLsbD_eq
    intro i hi
    rw [BitVec.getLsbD_extractLsb', ofLittleEndian, BitVec.getLsbD_or, BitVec.getLsbD_shiftLeft,
      BitVec.getLsbD_setWidth]
    cases k with
    | zero =>
      cases hb
      simp [hi, show i < 32 by omega]
    | succ k =>
      have hrest := congrArg (BitVec.getLsbD · i) (ih hb (by omega))
      have hlt : 8 * (k + 1) + i < 32 := by omega
      have hge : ¬ 8 * (k + 1) + i < 8 := by omega
      rw [BitVec.getLsbD_of_ge c _ (by omega), show 8 * (k + 1) + i - 8 = 8 * k + i by omega]
      simpa [hi, hlt, hge] using hrest

/-- The value of the bytes at an address: each byte of it is one of them, the lowest the first, and
it has no other bytes. -/
structure IsValueAt (bytes : Nat → Option Byte) (address : Long) (w : Width) (v : Long) : Prop where
  byte : ∀ k < w.bytes, bytes (address.toNat + k) = some (v.extractLsb' (8 * k) 8)
  lt : v.toNat < 2 ^ w.bits

namespace Memory

variable {m m' : Memory} {address : Long} {w : Width} {u v : Long}

theorem covers_iff {n : Nat} : m.covers address n = true ↔ address.toNat + n ≤ m.size :=
  decide_eq_true_iff

theorem getElem?_window (m : Memory) (address : Long) (n k : Nat) :
    (m.window address n)[k]? = if k < n then m.bytes[address.toNat + k]? else none := by
  rw [window_eq, List.getElem?_take, List.getElem?_drop, Array.getElem?_toList]

/-- **What is read** is the value of the bytes at the address. -/
theorem isValueAt_of_read (h : m.read address w = .ok v) :
    IsValueAt (m.bytes[·]?) address w v := by
  have hcovers := covers_of_read h
  have hfits := covers_iff.mp hcovers
  rw [read, if_pos hcovers] at h
  cases h
  constructor
  · intro k hk
    have hlt : address.toNat + k < m.bytes.size := by
      have hsize : m.size = m.bytes.size := rfl
      omega
    have hbyte : (m.window address w.bytes)[k]? = some m.bytes[address.toNat + k] := by
      rw [getElem?_window, if_pos hk, Array.getElem?_eq_getElem hlt]
    rw [extractLsb'_ofLittleEndian hbyte (hk.trans_le w.bytes_le)]
    exact Array.getElem?_eq_getElem hlt
  · have hlength : (m.window address w.bytes).length ≤ w.bytes := by
      rw [window_eq]
      exact List.length_take_le _ _
    refine (toNat_ofLittleEndian_lt _).trans_le (Nat.pow_le_pow_right (by decide) ?_)
    exact Nat.mul_le_mul_left 8 hlength

theorem exists_read_iff : (∃ v, m.read address w = .ok v) ↔ address.toNat + w.bytes ≤ m.size := by
  rw [← covers_iff]
  constructor
  · rintro ⟨v, h⟩
    exact covers_of_read h
  · intro h
    exact ⟨_, if_pos h⟩

theorem write_eq (m : Memory) (address : Long) (w : Width) (v : Long) : m.write address w v =
    if m.covers address w.bytes then .ok (m.store address (littleEndian w.bytes v))
    else .error (.illegalAccess address w.bytes) := by
  rw [write, load, length_littleEndian]

theorem exists_write_iff :
    (∃ m', m.write address w v = .ok m') ↔ address.toNat + w.bytes ≤ m.size := by
  rw [← covers_iff, write_eq]
  by_cases h : m.covers address w.bytes = true
  · exact ⟨fun _ => h, fun _ => ⟨_, if_pos h⟩⟩
  · rw [if_neg h]
    exact ⟨nofun, fun h' => absurd h' h⟩

/-- **All bytes after a value has been written**: those of the value, and around them the old
ones. -/
theorem getElem?_bytes_of_write (h : m.write address w v = .ok m') (a : Nat) : m'.bytes[a]? =
    if address.toNat ≤ a ∧ a < address.toNat + w.bytes then
      some (v.extractLsb' (8 * (a - address.toNat)) 8)
    else m.bytes[a]? := by
  have hfits := exists_write_iff.mp ⟨m', h⟩
  rw [write_eq, if_pos (covers_iff.mpr hfits)] at h
  cases h
  have hlength := length_littleEndian w.bytes v
  split_ifs with ha
  · obtain ⟨k, rfl⟩ := Nat.exists_eq_add_of_le ha.1
    have hk : k < w.bytes := by omega
    rw [store, getElem?_storeBytes _ (by omega) (by rw [hlength]; exact hfits),
      getElem?_littleEndian, if_pos hk, Nat.add_sub_cancel_left]
  · exact m.getElem?_store (by omega)

theorem size_of_write (h : m.write address w v = .ok m') : m'.size = m.size := by
  have hfits := exists_write_iff.mp ⟨m', h⟩
  rw [write_eq, if_pos (covers_iff.mpr hfits)] at h
  cases h
  exact m.size_store _ _

/-- **A window that holds a value** starts with what is read. -/
theorem readBytes_window {n : Nat} (h : w.bytes ≤ (m.window address n).length) :
    ∃ u, w.readBytes (m.window address n) = some u ∧ m.read address w = .ok u := by
  have hpos := w.bytes_pos
  rw [window_eq, List.length_take, List.length_drop, Array.length_toList] at h
  have hsize : m.size = m.bytes.size := rfl
  have hcovers : m.covers address w.bytes = true := covers_iff.mpr (by omega)
  have htake : (m.window address n).take w.bytes = m.window address w.bytes := by
    rw [window_eq, window_eq, List.take_take, Nat.min_eq_left (by omega)]
  refine ⟨_, ?_, if_pos hcovers⟩
  rw [Width.readBytes, if_pos (by simp [window_eq]; omega), htake]

end Memory

/-- **An instruction writes** to the memory of its machine, and a write that fails leaves the
machine as it was. -/
theorem Action.store_eq_write (address : Long) (w : Width) (v : Long) (machine : Machine) :
    store address w v machine = match machine.memory.write address w v with
      | .ok m => .ok () { machine with memory := m }
      | .error f => .error f machine := by
  rw [store_eq, Memory.write_eq]
  split_ifs <;> rfl

/-! ## Main result -/

namespace Memory

/-- **Memory is a row of bytes with views on it.** A value can be read and written exactly where all
of its bytes lie in memory, and a write that fails leaves the machine as it was. After a value has
been written, what is read anywhere in any width is the value of the bytes there, which are those
of the value that was written where the two overlap and the old ones elsewhere. A window that is
long enough starts with the value that is read. -/
theorem views_exact (m : Memory) (p : Long) (s : Width) (v : Long) :
    ((∃ u, m.read p s = .ok u) ↔ p.toNat + s.bytes ≤ m.size) ∧
    ((∃ m', m.write p s v = .ok m') ↔ p.toNat + s.bytes ≤ m.size) ∧
    (∀ machine : Machine, machine.memory = m →
      Action.store p s v machine = match m.write p s v with
        | .ok m' => .ok () { machine with memory := m' }
        | .error f => .error f machine) ∧
    (∀ m', m.write p s v = .ok m' → ∀ q t,
      ((∃ u, m'.read q t = .ok u) ↔ q.toNat + t.bytes ≤ m.size) ∧
      ∀ u, m'.read q t = .ok u → IsValueAt (fun a =>
        if p.toNat ≤ a ∧ a < p.toNat + s.bytes then some (v.extractLsb' (8 * (a - p.toNat)) 8)
        else m.bytes[a]?) q t u) ∧
    ∀ n t, t.bytes ≤ (m.window p n).length →
      ∃ u, t.readBytes (m.window p n) = some u ∧ m.read p t = .ok u := by
  refine ⟨exists_read_iff, exists_write_iff, ?_, fun m' h q t => ⟨?_, fun u hu => ?_⟩,
    fun n t => readBytes_window⟩
  · rintro machine rfl
    exact Action.store_eq_write p s v machine
  · rw [exists_read_iff, size_of_write h]
  · have hbytes := funext (getElem?_bytes_of_write h)
    exact hbytes ▸ isValueAt_of_read hu

/-- A word is written into eight bytes, and a long is read that starts in the middle of it. -/
theorem views_exact_halfway :
    ∃ m' u, (⟨#[1, 2, 3, 4, 5, 6, 7, 8]⟩ : Memory).write 3 .word 0xBBAA = .ok m' ∧
      m'.read 4 .long = .ok u ∧ u.extractLsb' 0 8 = 0xBB ∧ u.extractLsb' 24 8 = 8 := by
  obtain ⟨-, hwrite, -, hafter, -⟩ := views_exact ⟨#[1, 2, 3, 4, 5, 6, 7, 8]⟩ 3 .word 0xBBAA
  obtain ⟨m', hm'⟩ := hwrite.mpr (by decide)
  obtain ⟨hread, hvalue⟩ := hafter m' hm' 4 .long
  obtain ⟨u, hu⟩ := hread.mpr (by decide)
  have hbyte := (hvalue u hu).byte
  exact ⟨m', u, hm', hu, (Option.some.inj (hbyte 0 (by decide))).symm,
    (Option.some.inj (hbyte 3 (by decide))).symm⟩

end Memory

end Ia32
