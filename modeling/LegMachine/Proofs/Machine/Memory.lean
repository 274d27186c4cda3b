import LegMachine.Machine.Memory
import Mathlib.Algebra.Group.Int.Defs
import Mathlib.Algebra.Group.Nat.Defs

/-!
# Memory as a map from addresses to bytes

An access that is aligned reaches the block exactly if all of its bytes are mapped
(`locate_of_maps`, `locate_of_not_maps`). So a byte is loaded as it is mapped
(`load_byte_eq_ok`), and an aligned word is made of the four bytes that are mapped from its address
on (`load_word_eq_ok`).
-/

namespace LegMachine.Memory

/-- The bytes from an address on are part of the block. -/
def Maps (m : Memory) (length : Nat) (address : Word) : Prop :=
  m.base ≤ address ∧ (address - m.base).toNat + length ≤ m.bytes.size

variable {m : Memory} {access : Access} {align length width : Nat} {address : Word}

/-! ## Where an access goes -/

theorem maps_iff {length : Nat} :
    m.Maps length address ↔ m.base.toNat ≤ address.toNat ∧
      address.toNat + length ≤ m.base.toNat + m.bytes.size := by
  unfold Maps
  rw [BitVec.le_def]
  refine and_congr_right fun hbase => ?_
  rw [BitVec.toNat_sub_of_le hbase]
  omega

theorem locate_of_maps (halign : address.toNat % align = 0) (h : m.Maps length address) :
    m.locate access align length address = .ok (address - m.base).toNat := by
  obtain ⟨hbase, hsize⟩ := h
  unfold locate
  rw [if_neg (by omega), if_neg]
  rw [not_or, BitVec.not_lt]
  exact ⟨hbase, by omega⟩

theorem locate_of_not_maps (halign : address.toNat % align = 0) (h : ¬ m.Maps length address) :
    m.locate access align length address = .error ⟨access, address, .outOfRange⟩ := by
  unfold locate
  rw [if_neg (by omega), if_pos]
  apply Decidable.byContradiction
  intro hin
  rw [not_or, BitVec.not_lt] at hin
  exact h ⟨hin.1, by omega⟩

theorem locate_of_misaligned (halign : address.toNat % align ≠ 0) :
    m.locate access align length address = .error ⟨access, address, .misaligned⟩ := by
  unfold locate
  rw [if_pos halign]

theorem locate_eq_ok {offset : Nat} :
    m.locate access align length address = .ok offset ↔
      address.toNat % align = 0 ∧ m.Maps length address ∧ (address - m.base).toNat = offset := by
  by_cases halign : address.toNat % align = 0
  · by_cases hmaps : m.Maps length address
    · rw [locate_of_maps halign hmaps]
      simp [halign, hmaps]
    · rw [locate_of_not_maps halign hmaps]
      simp [hmaps]
  · rw [locate_of_misaligned halign]
    simp [halign]

theorem load_eq_ok {w : Word} :
    m.load width address = .ok w ↔ address.toNat % width = 0 ∧ m.Maps width address ∧
      BitVec.ofNat 32 (LittleEndian.combine (m.read (address - m.base).toNat width)) = w := by
  unfold load
  cases hlocate : m.locate .load width width address with
  | ok offset =>
    obtain ⟨halign, hmaps, rfl⟩ := locate_eq_ok.1 hlocate
    simp [Except.map, halign, hmaps]
  | error e =>
    refine iff_of_false nofun ?_
    rintro ⟨halign, hmaps, -⟩
    rw [locate_of_maps halign hmaps] at hlocate
    cases hlocate

theorem load_of_maps (halign : address.toNat % width = 0) (h : m.Maps width address) :
    ∃ v, m.load width address = .ok v :=
  ⟨_, load_eq_ok.2 ⟨halign, h, rfl⟩⟩

theorem load_of_not_maps (halign : address.toNat % width = 0) (h : ¬ m.Maps width address) :
    m.load width address = .error ⟨.load, address, .outOfRange⟩ := by
  simp only [load, locate_of_not_maps halign h, Except.map]

theorem store_of_maps (halign : address.toNat % width = 0) (h : m.Maps width address) (v : Word) :
    ∃ memory, m.store width address v = .ok memory ∧
      ∀ length a, memory.Maps length a ↔ m.Maps length a := by
  simp only [store, locate_of_maps halign h, Except.map, Except.ok.injEq, exists_eq_left', Maps,
    base_write, size_write, implies_true]

theorem store_of_not_maps (halign : address.toNat % width = 0) (h : ¬ m.Maps width address)
    (v : Word) : m.store width address v = .error ⟨.store, address, .outOfRange⟩ := by
  simp only [store, locate_of_not_maps halign h, Except.map]

/-! ## Bytes -/

theorem byte?_eq_some {b : UInt8} :
    m.byte? address = some b ↔ m.Maps 1 address ∧ m.peek (address - m.base).toNat = b := by
  unfold byte? Maps peek
  generalize (address - m.base).toNat = offset
  by_cases hbase : m.base ≤ address
  · rw [if_pos hbase]
    by_cases hsize : offset < m.bytes.size
    · rw [getElem?_pos m.bytes offset hsize, dif_pos hsize, Option.some.injEq]
      exact (and_iff_right ⟨hbase, hsize⟩).symm
    · rw [getElem?_neg m.bytes offset hsize]
      refine iff_of_false (by simp) ?_
      rintro ⟨⟨-, hle⟩, -⟩
      exact hsize hle
  · rw [if_neg hbase]
    refine iff_of_false (by simp) ?_
    rintro ⟨⟨hle, -⟩, -⟩
    exact hbase hle

theorem load_byte_eq_ok {w : Word} :
    m.load 1 address = .ok w ↔
      ∃ b, m.byte? address = some b ∧ BitVec.ofNat 32 b.toNat = w := by
  rw [load_eq_ok]
  simp only [byte?_eq_some, Nat.mod_one, true_and]
  constructor
  · rintro ⟨hmaps, hw⟩
    exact ⟨_, ⟨hmaps, rfl⟩, by simpa [read, LittleEndian.combine] using hw⟩
  · rintro ⟨_, ⟨hmaps, rfl⟩, hw⟩
    exact ⟨hmaps, by simpa [read, LittleEndian.combine] using hw⟩

/-! ## Words -/

/-- A run of bytes is mapped if its bytes are mapped one by one. -/
theorem byte?_add_of_maps (h : m.Maps length address) {k : Word} (hk : k.toNat < length)
    (hend : address.toNat + k.toNat < 2 ^ 32) :
    m.byte? (address + k) = some (m.peek ((address - m.base).toNat + k.toNat)) := by
  obtain ⟨hbase, hsize⟩ := h
  have hle : m.base.toNat ≤ address.toNat := hbase
  have hsum := BitVec.toNat_add_of_lt hend
  have hbase' : m.base ≤ address + k := by
    rw [BitVec.le_def]
    omega
  have hoffset : (address + k - m.base).toNat = (address - m.base).toNat + k.toNat := by
    rw [BitVec.toNat_sub_of_le hbase', BitVec.toNat_sub_of_le hbase]
    omega
  rw [byte?_eq_some, Maps, hoffset]
  exact ⟨⟨hbase', by omega⟩, rfl⟩

theorem byte?_word_of_maps (halign : address.toNat % 4 = 0) (h : m.Maps 4 address) :
    m.byte? address = some (m.peek (address - m.base).toNat) ∧
      m.byte? (address + 1) = some (m.peek ((address - m.base).toNat + 1)) ∧
      m.byte? (address + 2) = some (m.peek ((address - m.base).toNat + 2)) ∧
      m.byte? (address + 3) = some (m.peek ((address - m.base).toNat + 3)) := by
  have hlt : address.toNat < 2 ^ 32 := address.isLt
  have hbyte : ∀ k : Word, k.toNat < 4 →
      m.byte? (address + k) = some (m.peek ((address - m.base).toNat + k.toNat)) :=
    fun k hk => byte?_add_of_maps h hk (by omega)
  refine ⟨?_, hbyte 1 (by decide), hbyte 2 (by decide), hbyte 3 (by decide)⟩
  exact byte?_eq_some.2 ⟨⟨h.1, Nat.le_trans (Nat.add_le_add_left (by decide) _) h.2⟩, rfl⟩

/-- A word is mapped if its first and its last byte are. -/
theorem maps_word_of_byte? (halign : address.toNat % 4 = 0) {b0 b3 : UInt8}
    (h0 : m.byte? address = some b0) (h3 : m.byte? (address + 3) = some b3) :
    m.Maps 4 address := by
  have hlt : address.toNat < 2 ^ 32 := address.isLt
  have hsum : (address + 3).toNat = address.toNat + 3 :=
    BitVec.toNat_add_of_lt (show address.toNat + 3 < 2 ^ 32 by omega)
  obtain ⟨⟨hbase, -⟩, -⟩ := byte?_eq_some.1 h0
  obtain ⟨⟨hbase', hsize⟩, -⟩ := byte?_eq_some.1 h3
  have hle : m.base.toNat ≤ address.toNat := hbase
  rw [BitVec.toNat_sub_of_le hbase', hsum] at hsize
  refine ⟨hbase, ?_⟩
  rw [BitVec.toNat_sub_of_le hbase]
  omega

/-- An aligned word is made of the bytes that are mapped from its address on. -/
theorem load_word_eq_ok {w : Word} (halign : address.toNat % 4 = 0) :
    m.load 4 address = .ok w ↔
      ∃ b0 b1 b2 b3, m.byte? address = some b0 ∧ m.byte? (address + 1) = some b1 ∧
        m.byte? (address + 2) = some b2 ∧ m.byte? (address + 3) = some b3 ∧
        BitVec.ofNat 32 (LittleEndian.combine [b0, b1, b2, b3]) = w := by
  rw [load_eq_ok]
  constructor
  · rintro ⟨-, hmaps, hw⟩
    obtain ⟨p0, p1, p2, p3⟩ := byte?_word_of_maps halign hmaps
    exact ⟨_, _, _, _, p0, p1, p2, p3, hw⟩
  · rintro ⟨b0, b1, b2, b3, h0, h1, h2, h3, hw⟩
    have hmaps := maps_word_of_byte? halign h0 h3
    obtain ⟨p0, p1, p2, p3⟩ := byte?_word_of_maps halign hmaps
    refine ⟨halign, hmaps, ?_⟩
    rw [← hw, Option.some.inj (h0.symm.trans p0), Option.some.inj (h1.symm.trans p1),
      Option.some.inj (h2.symm.trans p2), Option.some.inj (h3.symm.trans p3)]
    rfl

end LegMachine.Memory
