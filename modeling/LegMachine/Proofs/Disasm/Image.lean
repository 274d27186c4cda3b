import LegMachine.Disasm.Image
import LegMachine.Proofs.Machine.Memory
import Mathlib.Algebra.Group.Int.Defs
import Mathlib.Algebra.Group.Nat.Defs

/-!
# Images and memories

An image of one segment is to show what a memory with the same bytes at the same base holds
(`AgreesWith`). It does so as long as the segment ends below the top of the address space. The end
of a segment that reaches the top is counted as zero, and the image is empty (`byte?_raw_eq_none`);
so this is the one case in which the views differ (`raw_agreesWith_iff`).
-/

namespace LegMachine

namespace Segment

variable {s : Segment}

theorem toNat_endAddress (h : s.base.toNat + s.bytes.size < 2 ^ 32) :
    s.endAddress.toNat = s.base.toNat + s.bytes.size := by
  unfold endAddress
  rw [BitVec.toNat_add, BitVec.toNat_ofNat]
  omega

theorem endAddress_eq_zero (h : s.base.toNat + s.bytes.size = 2 ^ 32) : s.endAddress = 0 := by
  apply BitVec.eq_of_toNat_eq
  unfold endAddress
  rw [BitVec.toNat_add, BitVec.toNat_ofNat]
  show _ = 0
  omega

theorem contains_iff (h : s.base.toNat + s.bytes.size < 2 ^ 32) (a : Word) :
    s.contains a = true ↔ s.base ≤ a ∧ (a - s.base).toNat < s.bytes.size := by
  unfold contains
  rw [Bool.and_eq_true, decide_eq_true_eq, decide_eq_true_eq, BitVec.lt_def, toNat_endAddress h]
  refine and_congr_right fun hbase => ?_
  have hle : s.base.toNat ≤ a.toNat := hbase
  rw [BitVec.toNat_sub_of_le hbase]
  omega

theorem contains_eq_false (h : s.endAddress = 0) (a : Word) : s.contains a = false := by
  unfold contains
  rw [h, Bool.and_eq_false_iff]
  exact .inr (decide_eq_false BitVec.not_lt_zero)

end Segment

namespace Image

variable {base : Word} {bytes : ByteArray}

/-- The image shows the bytes and the aligned words that are loaded from the memory. -/
structure AgreesWith (image : Image) (m : Memory) : Prop where
  word : ∀ a w : Word, a.toNat % 4 = 0 → (image.word? a = some w ↔ m.load 4 a = .ok w)
  byte : ∀ (a : Word) (b : UInt8),
    image.byte? a = some b ↔ m.load 1 a = .ok (BitVec.ofNat 32 b.toNat)

theorem byte?_raw_eq_none (h : base.toNat + bytes.size = 2 ^ 32) (a : Word) :
    (raw base bytes).byte? a = none := by
  unfold raw byte?
  rw [List.find?_cons, Segment.contains_eq_false (Segment.endAddress_eq_zero h)]
  rfl

theorem byte?_raw (h : base.toNat + bytes.size < 2 ^ 32) (a : Word) :
    (raw base bytes).byte? a = Memory.byte? ⟨bytes, base⟩ a := by
  have hcontains := Segment.contains_iff (s := ⟨"text", base, bytes, "r-x"⟩) h a
  unfold raw byte? Memory.byte?
  rw [List.find?_cons]
  split
  · next hin =>
    rw [if_pos (hcontains.1 hin).1]
    rfl
  · next hout =>
    split
    · next hbase =>
      have hsize : ¬ (a - base).toNat < bytes.size := by
        intro hsize
        rw [hcontains.2 ⟨hbase, hsize⟩] at hout
        cases hout
      exact (getElem?_neg bytes _ hsize).symm
    · rfl

theorem agreesWith_of_byte? {image : Image} {m : Memory} (h : ∀ a, image.byte? a = m.byte? a) :
    image.AgreesWith m := by
  constructor
  case word =>
    intro a w ha
    rw [word?_eq_some, Memory.load_word_eq_ok ha, h, h, h, h]
  case byte =>
    intro a b
    rw [Memory.load_byte_eq_ok, h]
    constructor
    · intro hb
      exact ⟨b, hb, rfl⟩
    · rintro ⟨c, hc, heq⟩
      have hbyte : c = b := by
        have hn := congrArg BitVec.toNat heq
        have hblt := b.toNat_lt
        have hclt := c.toNat_lt
        rw [BitVec.toNat_ofNat, BitVec.toNat_ofNat] at hn
        apply UInt8.toNat_inj.1
        omega
      rw [hc, hbyte]

/-- An image of bytes that fit into the address space shows what the memory holds unless the bytes
reach the top of the address space. -/
theorem raw_agreesWith_iff (hfit : base.toNat + bytes.size ≤ 2 ^ 32) :
    (raw base bytes).AgreesWith ⟨bytes, base⟩ ↔ base.toNat + bytes.size < 2 ^ 32 := by
  constructor
  · intro hagree
    -- a segment that ends at the top is not empty, so the memory loads the byte at its base,
    -- and the image, whose end address wrapped to zero, shows no byte at all
    refine Nat.lt_of_le_of_ne hfit fun htop => ?_
    have hlt : base.toNat < 2 ^ 32 := base.isLt
    have hmaps : Memory.Maps ⟨bytes, base⟩ 1 base := by
      refine ⟨BitVec.le_refl base, ?_⟩
      rw [BitVec.sub_self]
      show 0 + 1 ≤ bytes.size
      omega
    have hload := Memory.load_byte_eq_ok.2 ⟨_, Memory.byte?_eq_some.2 ⟨hmaps, rfl⟩, rfl⟩
    have hshown := (hagree.byte base _).2 hload
    rw [byte?_raw_eq_none htop] at hshown
    cases hshown
  · intro hlt
    exact agreesWith_of_byte? (byte?_raw hlt)

theorem raw_agreesWith_word :
    (0xFFFFFFF8 : Word).toNat + (⟨#[0x10, 0, 0, 8]⟩ : ByteArray).size ≤ 2 ^ 32 ∧
      (raw 0xFFFFFFF8 ⟨#[0x10, 0, 0, 8]⟩).AgreesWith ⟨⟨#[0x10, 0, 0, 8]⟩, 0xFFFFFFF8⟩ :=
  ⟨by decide, (raw_agreesWith_iff (by decide)).2 (by decide)⟩

/-- The last word of the address space is loaded from the memory but not shown by the image. -/
theorem raw_not_agreesWith_top :
    (0xFFFFFFFC : Word).toNat + (⟨#[0x10, 0, 0, 8]⟩ : ByteArray).size ≤ 2 ^ 32 ∧
      Memory.load ⟨⟨#[0x10, 0, 0, 8]⟩, 0xFFFFFFFC⟩ 4 0xFFFFFFFC = .ok 0x08000010 ∧
      (raw 0xFFFFFFFC ⟨#[0x10, 0, 0, 8]⟩).word? 0xFFFFFFFC = none ∧
      ¬ (raw 0xFFFFFFFC ⟨#[0x10, 0, 0, 8]⟩).AgreesWith ⟨⟨#[0x10, 0, 0, 8]⟩, 0xFFFFFFFC⟩ := by
  have hload : Memory.load ⟨⟨#[0x10, 0, 0, 8]⟩, 0xFFFFFFFC⟩ 4 0xFFFFFFFC = .ok 0x08000010 := rfl
  have hword : (raw 0xFFFFFFFC ⟨#[0x10, 0, 0, 8]⟩).word? 0xFFFFFFFC = none := rfl
  refine ⟨by decide, hload, hword, fun hagree => ?_⟩
  have hshown := (hagree.word 0xFFFFFFFC 0x08000010 (by decide)).2 hload
  rw [hword] at hshown
  cases hshown

end Image

end LegMachine
