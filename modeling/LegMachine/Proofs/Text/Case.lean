import LegMachine.Isa.Descriptor
import Mathlib.Data.List.Forall2

/-!
# The case of ASCII letters

Lower case is a matter of single characters, and of single bytes of a text in UTF-8
(`utf8_foldCase`): a character beyond ASCII has no byte that is a letter. Two texts are alike up to
case if their bytes are, one by one (`equalIgnoringCase_utf8`), and one begins with the other if its
bytes do (`utf8_isPrefix`). Texts are alike if one begins with the other and they have as many bytes
(`foldCase_eq_iff`).
-/

namespace LegMachine

namespace Text

def utf8 (text : List Char) : List UInt8 :=
  text.flatMap String.utf8EncodeChar

/-- The byte of an ASCII letter in lower case, any other byte as it is. -/
def foldByte (b : UInt8) : UInt8 :=
  if 65 ≤ b ∧ b ≤ 90 then b + 32 else b

/-- Whether there are as many bytes on both sides and each is alike up to the case of a letter. -/
def equalIgnoringCase (a b : List UInt8) : Bool :=
  a.length == b.length && (a.zip b).all fun (x, y) => foldByte x == foldByte y

/-! ## Characters -/

/-- A property of characters that is decided for ASCII. -/
theorem forall_char {P : Char → Prop} (hascii : ∀ n < 128, P (Char.ofNat n))
    (hother : ∀ c : Char, 128 ≤ c.toNat → P c) (c : Char) : P c := by
  rcases Nat.lt_or_ge c.toNat 128 with h | h
  · have hc := hascii c.toNat h
    rwa [Char.ofNat_toNat] at hc
  · exact hother c h

theorem not_le_of_notAscii {c bound : Char} (h : 128 ≤ c.toNat) (hbound : bound.toNat < 128) :
    ¬ c.val ≤ bound.val := by
  intro hc
  have hle : c.toNat ≤ bound.toNat := hc
  omega

theorem toLower_of_notAscii {c : Char} (h : 128 ≤ c.toNat) : c.toLower = c :=
  dif_neg fun hc => not_le_of_notAscii h (by decide : 'Z'.toNat < 128) hc.2

theorem toUpper_of_notAscii {c : Char} (h : 128 ≤ c.toNat) : c.toUpper = c :=
  dif_neg fun hc => not_le_of_notAscii h (by decide : 'z'.toNat < 128) hc.2

theorem toLower_toLower (c : Char) : c.toLower.toLower = c.toLower := by
  refine forall_char (P := fun c => c.toLower.toLower = c.toLower) (by decide) (fun c h => ?_) c
  rw [toLower_of_notAscii h, toLower_of_notAscii h]

theorem toLower_toUpper (c : Char) : c.toUpper.toLower = c.toLower := by
  refine forall_char (P := fun c => c.toUpper.toLower = c.toLower) (by decide) (fun c h => ?_) c
  rw [toUpper_of_notAscii h]

/-- A character beyond ASCII is made of bytes beyond ASCII. -/
theorem le_of_mem_utf8EncodeChar {c : Char} (h : 128 ≤ c.toNat) :
    ∀ b ∈ String.utf8EncodeChar c, 128 ≤ b.toNat := by
  have hval : 128 ≤ c.val.toNat := h
  intro b hb
  unfold String.utf8EncodeChar at hb
  dsimp only at hb
  split at hb
  · omega
  · split at hb
    · simp only [List.mem_cons, List.not_mem_nil, or_false] at hb
      rcases hb with rfl | rfl <;> rw [UInt8.toNat_ofNat'] <;> omega
    · split at hb <;> simp only [List.mem_cons, List.not_mem_nil, or_false] at hb
      · rcases hb with rfl | rfl | rfl <;> rw [UInt8.toNat_ofNat'] <;> omega
      · rcases hb with rfl | rfl | rfl | rfl <;> rw [UInt8.toNat_ofNat'] <;> omega

theorem foldByte_of_notAscii {b : UInt8} (h : 128 ≤ b.toNat) : foldByte b = b := by
  refine if_neg fun hb => ?_
  have hz : b.toNat ≤ 90 := hb.2
  omega

theorem utf8EncodeChar_toLower (c : Char) :
    String.utf8EncodeChar c.toLower = (String.utf8EncodeChar c).map foldByte := by
  refine forall_char
    (P := fun c => String.utf8EncodeChar c.toLower = (String.utf8EncodeChar c).map foldByte)
    (by decide) (fun c h => ?_) c
  rw [toLower_of_notAscii h]
  refine (List.map_id' _).symm.trans (List.map_congr_left fun b hb => ?_)
  exact (foldByte_of_notAscii (le_of_mem_utf8EncodeChar h b hb)).symm

/-! ## Texts -/

theorem foldCase_append (a b : List Char) : foldCase (a ++ b) = foldCase a ++ foldCase b :=
  List.map_append

theorem length_utf8 (text : List Char) : (utf8 text).length = byteLength text := by
  induction text with
  | nil => rfl
  | cons c rest ih =>
    rw [utf8, List.flatMap_cons, List.length_append, String.length_utf8EncodeChar]
    exact congrArg (c.utf8Size + ·) ih

theorem utf8_foldCase (text : List Char) : utf8 (foldCase text) = (utf8 text).map foldByte := by
  unfold utf8 foldCase
  rw [List.flatMap_map, List.map_flatMap]
  exact congrArg (List.flatMap · text) (funext utf8EncodeChar_toLower)

/-- No text begins with another one in its bytes alone. -/
theorem utf8_isPrefix {a b : List Char} : utf8 a <+: utf8 b ↔ a <+: b := by
  constructor
  · rintro ⟨rest, hrest⟩
    refine List.isPrefix_of_utf8Encode_append_eq_utf8Encode rest.toByteArray ?_
    rw [List.utf8Encode, List.utf8Encode, ← List.toByteArray_append]
    exact congrArg List.toByteArray hrest
  · rintro ⟨rest, rfl⟩
    exact ⟨utf8 rest, List.flatMap_append.symm⟩

theorem utf8_injective : Function.Injective utf8 := by
  intro a b h
  have hab : a <+: b := utf8_isPrefix.1 (h ▸ List.prefix_refl _)
  have hba : b <+: a := utf8_isPrefix.1 (h ▸ List.prefix_refl _)
  exact hab.eq_of_length_le hba.length_le

/-! ## Comparisons -/

theorem equalIgnoringCase_iff (a b : List UInt8) :
    equalIgnoringCase a b = true ↔ a.map foldByte = b.map foldByte := by
  induction a generalizing b with
  | nil => cases b <;> simp [equalIgnoringCase]
  | cons x a ih =>
    cases b with
    | nil => simp [equalIgnoringCase]
    | cons y b =>
      have htail := ih b
      simp only [equalIgnoringCase, Bool.and_eq_true, beq_iff_eq] at htail
      simp only [equalIgnoringCase, List.length_cons, List.zip_cons_cons, List.all_cons,
        Bool.and_eq_true, beq_iff_eq, List.map_cons, List.cons.injEq, ← htail,
        Nat.add_right_cancel_iff]
      exact and_left_comm

theorem equalIgnoringCase_utf8 (a b : List Char) :
    equalIgnoringCase (utf8 a) (utf8 b) = true ↔ foldCase a = foldCase b := by
  rw [equalIgnoringCase_iff, ← utf8_foldCase, ← utf8_foldCase, utf8_injective.eq_iff]

theorem byteLength_append (a b : List Char) :
    byteLength (a ++ b) = byteLength a + byteLength b := by
  rw [← length_utf8, ← length_utf8, ← length_utf8, utf8, List.flatMap_append, List.length_append]
  rfl

theorem byteLength_foldCase (text : List Char) : byteLength (foldCase text) = byteLength text := by
  rw [← length_utf8, utf8_foldCase, List.length_map, length_utf8]

/-- Texts are alike if one begins with the other and they have as many bytes. -/
theorem foldCase_eq_iff (text start : List Char) :
    foldCase text = foldCase start ↔
      foldCase start <+: foldCase text ∧ byteLength text = byteLength start := by
  constructor
  · intro h
    refine ⟨h ▸ List.prefix_refl _, ?_⟩
    rw [← byteLength_foldCase, h, byteLength_foldCase]
  · rintro ⟨⟨rest, hrest⟩, hlength⟩
    have hbytes := congrArg byteLength hrest
    rw [byteLength_append, byteLength_foldCase, byteLength_foldCase] at hbytes
    obtain rfl := @eq_nil_of_byteLength rest (by omega)
    rw [← hrest, List.append_nil]

/-- Texts that differ at most in the case of their ASCII letters. -/
def SameLetters (a b : List Char) : Prop :=
  List.Forall₂ (fun c c' => c' = c ∨ c' = c.toLower ∨ c' = c.toUpper) a b

theorem SameLetters.foldCase_eq {a b : List Char} (h : SameLetters a b) :
    foldCase b = foldCase a := by
  induction h with
  | nil => rfl
  | cons hc _ ih =>
    refine congrArg₂ List.cons ?_ ih
    rcases hc with rfl | rfl | rfl
    · rfl
    · exact toLower_toLower _
    · exact toLower_toUpper _

end Text

end LegMachine
