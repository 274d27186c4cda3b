import LegMachine.Proofs.Disasm.Rendering
import LegMachine.Proofs.Isa.Decoding

/-!
# The text of a word

A mnemonic has no blank, so it is read off the front of a text (`takeWhile_chars`). Samples that
begin with one mnemonic are apart (`catalog_apart`), and all of them show their fields whole
(`catalog_legible`). So the text tells the instruction and its operands (`eq_of_chars_eq`), and a
word is known from its text at any address (`wordText_inj`).
-/

namespace LegMachine

open Piece

theorem catalog_legible : ∀ d ∈ catalog, legible d.format d.fieldWidths d.pieces = true := by
  decide +kernel

theorem catalog_mnemonic : ∀ d ∈ catalog, ' ' ∉ d.mnemonic ∧ d.mnemonic ≠ ".word".toList := by
  decide +kernel

theorem catalog_apart : catalog.Pairwise fun a b =>
    a.mnemonic = b.mnemonic → apart a.pieces b.pieces = true := by
  decide +kernel

theorem pieces_of_operandText_isEmpty {d : Descriptor} (h : d.operandText.isEmpty = true) :
    d.pieces = [] := by
  rw [Descriptor.pieces, List.isEmpty_iff.1 h, scan]

/-- Two instructions with one mnemonic are the same, or are apart in some order. -/
theorem eq_or_apart {a b : Descriptor} (ha : a ∈ catalog) (hb : b ∈ catalog)
    (h : a.mnemonic = b.mnemonic) :
    a = b ∨ apart a.pieces b.pieces = true ∨ apart b.pieces a.pieces = true := by
  let R : Descriptor → Descriptor → Prop := fun a b => a.mnemonic = b.mnemonic →
    apart a.pieces b.pieces = true ∨ apart b.pieces a.pieces = true
  have hsymm : Std.Symm R := ⟨fun a b hab h => (hab h.symm).symm⟩
  have hpair : catalog.Pairwise R := catalog_apart.imp fun hab h => .inl (hab h)
  by_cases hne : a = b
  · exact .inl hne
  · exact .inr (hpair.forall ha hb hne h)

/-! ## The text of an instruction -/

namespace Decoded

variable {d : Decoded} (pc : Word)

/-- What stands in front of the first blank of the text. -/
theorem takeWhile_chars (hd : d.descriptor ∈ catalog) :
    (d.chars pc).takeWhile (· != ' ') = d.descriptor.mnemonic := by
  have hword : ∀ c ∈ d.descriptor.mnemonic, (c != ' ') = true := by
    intro c hc
    rw [bne_iff_ne]
    rintro rfl
    exact (catalog_mnemonic _ hd).1 hc
  have hrest : ∃ rest, d.chars pc = d.descriptor.mnemonic ++ rest ∧
      rest.takeWhile (· != ' ') = [] := by
    unfold chars
    dsimp only
    split
    · exact ⟨[], (List.append_nil _).symm, rfl⟩
    · exact ⟨_, rfl, rfl⟩
  obtain ⟨rest, hchars, hrest⟩ := hrest
  rw [hchars, List.takeWhile_append_of_pos hword, hrest, List.append_nil]

/-- Behind the mnemonic stand the pieces, if there are any. -/
theorem chars_eq (h : d.descriptor.pieces ≠ []) :
    d.chars pc = d.descriptor.mnemonic ++ ' ' ::
      renderAll d.descriptor.format pc d.sizedOperands d.descriptor.pieces := by
  unfold chars
  exact if_neg fun hempty => h (pieces_of_operandText_isEmpty hempty)

theorem sizedOperands_eq (h : d.operands.length = d.descriptor.fieldWidths.length) :
    d.sizedOperands = d.operands.zip d.descriptor.fieldWidths := by
  apply List.ext_getElem
  · simp [sizedOperands, h]
  · intro k hk _
    have hlt : k < d.descriptor.fieldWidths.length := by simpa [sizedOperands, h] using hk
    simp [sizedOperands, hlt]

end Decoded

/-- Every operand that is read fits into its field. -/
theorem fits_extract {e : Entry} (he : e ∈ catalogEntries) (w : Word) :
    Fits e.descriptor.fieldWidths (e.encoding.extract w) := by
  have hp := Template.partition_of_compile (mem_catalogEntries.1 he).2
  rw [Fits, fieldWidths_eq he, Encoding.extract, List.forall₂_map_left_iff,
    List.forall₂_map_right_iff, List.forall₂_same]
  exact fun f hf => gather_lt w (hp.length_le hf)

theorem takeWhile_chars_decode {e : Entry} (he : e ∈ catalogEntries) (pc w : Word) :
    ((e.decode w).chars pc).takeWhile (· != ' ') = e.descriptor.mnemonic :=
  Decoded.takeWhile_chars (d := e.decode w) pc (mem_catalogEntries.1 he).1

/-- Behind the mnemonic stand the pieces with what is read from the word. -/
theorem chars_decode {e : Entry} (he : e ∈ catalogEntries) (h : e.descriptor.pieces ≠ [])
    (pc w : Word) :
    (e.decode w).chars pc = e.descriptor.mnemonic ++ ' ' ::
      renderAll e.descriptor.format pc ((e.encoding.extract w).zip e.descriptor.fieldWidths)
        e.descriptor.pieces := by
  rw [Decoded.chars_eq pc (d := e.decode w) h,
    Decoded.sizedOperands_eq (d := e.decode w) (fits_extract he w).length_eq.symm]
  rfl

/-- Instructions that are apart are not written alike. -/
theorem chars_ne_of_apart {a b : Entry} (ha : a ∈ catalogEntries) (hb : b ∈ catalogEntries)
    (hname : a.descriptor.mnemonic = b.descriptor.mnemonic)
    (hapart : apart a.descriptor.pieces b.descriptor.pieces = true) (pc v w : Word) :
    (a.decode v).chars pc ≠ (b.decode w).chars pc := by
  have hne : a.descriptor.pieces ≠ [] ∧ b.descriptor.pieces ≠ [] := by
    constructor <;> intro hnil <;> simp [hnil, apart] at hapart
  rw [chars_decode ha hne.1, chars_decode hb hne.2, hname]
  intro heq
  exact renderAll_ne_of_apart hapart (catalog_legible _ (mem_catalogEntries.1 ha).1)
    (catalog_legible _ (mem_catalogEntries.1 hb).1) (fits_extract ha v) (fits_extract hb w)
    (List.cons.inj (List.append_cancel_left heq)).2

/-- The operands are known from the text of an instruction. -/
theorem extract_eq_of_chars_eq {e : Entry} (he : e ∈ catalogEntries) {pc v w : Word}
    (h : (e.decode v).chars pc = (e.decode w).chars pc) :
    e.encoding.extract v = e.encoding.extract w := by
  have hbody : renderAll e.descriptor.format pc
        ((e.encoding.extract v).zip e.descriptor.fieldWidths) e.descriptor.pieces =
      renderAll e.descriptor.format pc
        ((e.encoding.extract w).zip e.descriptor.fieldWidths) e.descriptor.pieces := by
    by_cases hnil : e.descriptor.pieces = []
    · rw [hnil, renderAll, renderAll]
    · rw [chars_decode he hnil, chars_decode he hnil] at h
      exact (List.cons.inj (List.append_cancel_left h)).2
  exact renderAll_injective (catalog_legible _ (mem_catalogEntries.1 he).1) (fits_extract he v)
    (fits_extract he w) hbody

/-- The instruction and the word are known from the text. -/
theorem eq_of_chars_eq {a b : Entry} (ha : a ∈ catalogEntries) (hb : b ∈ catalogEntries)
    {pc v w : Word} (hv : a.encoding.accepts v = true) (hw : b.encoding.accepts w = true)
    (h : (a.decode v).chars pc = (b.decode w).chars pc) : v = w := by
  have hna := mem_catalogEntries.1 ha
  have hnb := mem_catalogEntries.1 hb
  have hname : a.descriptor.mnemonic = b.descriptor.mnemonic := by
    rw [← takeWhile_chars_decode ha pc v, h, takeWhile_chars_decode hb]
  -- with one mnemonic the instructions are the same, or their operand texts differ somewhere
  rcases eq_or_apart hna.1 hnb.1 hname with hsame | hapart | hapart
  · obtain rfl := eq_of_descriptor_eq ha hb hsame
    have hp := Template.partition_of_compile hna.2
    rw [← Encoding.encode_extract hp hv, extract_eq_of_chars_eq ha h,
      Encoding.encode_extract hp hw]
  · exact absurd h (chars_ne_of_apart ha hb hname hapart pc v w)
  · exact absurd h.symm (chars_ne_of_apart hb ha hname.symm hapart pc w v)

theorem takeWhile_unknownWord (w : Word) :
    (unknownWord w).toList.takeWhile (· != ' ') = ".word".toList := by
  have hchars : (unknownWord w).toList = ".word".toList ++ ' ' :: Text.hexWord w :=
    String.toList_ofList
  rw [hchars]
  simp

/-- No instruction is written like a word that is none. -/
theorem text_ne_unknownWord {e : Entry} (he : e ∈ catalogEntries) (pc v w : Word) :
    (e.decode v).text pc ≠ unknownWord w := by
  intro h
  have hd := (mem_catalogEntries.1 he).1
  have htext : ((e.decode v).text pc).toList = (e.decode v).chars pc := String.toList_ofList
  have hname := takeWhile_unknownWord w
  rw [← h, htext, takeWhile_chars_decode he pc v] at hname
  exact (catalog_mnemonic _ hd).2 hname

theorem unknownWord_injective {v w : Word} (h : unknownWord v = unknownWord w) : v = w :=
  Text.hexWord_injective (List.append_cancel_left (String.ofList_injective h))

/-- At any address, two words are written alike only if they are one word. -/
theorem wordText_inj {pc v w : Word} :
    wordText instructionSet.decode? pc v = wordText instructionSet.decode? pc w ↔ v = w := by
  refine ⟨fun h => ?_, fun h => by rw [h]⟩
  unfold wordText at h
  cases hv : instructionSet.decode? v with
  | none =>
    cases hw : instructionSet.decode? w with
    | none =>
      rw [hv, hw] at h
      exact unknownWord_injective h
    | some d =>
      obtain ⟨e, he, -, rfl⟩ := exists_of_decode? hw
      rw [hv, hw] at h
      exact absurd h.symm (text_ne_unknownWord he pc w v)
  | some d =>
    obtain ⟨a, ha, hav, rfl⟩ := exists_of_decode? hv
    cases hw : instructionSet.decode? w with
    | none =>
      rw [hv, hw] at h
      exact absurd h (text_ne_unknownWord ha pc v w)
    | some d =>
      obtain ⟨b, hb, hbw, rfl⟩ := exists_of_decode? hw
      rw [hv, hw] at h
      exact eq_of_chars_eq ha hb hav hbw (String.ofList_injective h)

example : wordText instructionSet.decode? 0 0x08000002 = "B 0x00000008" ∧
    wordText instructionSet.decode? 0 0x14000002 = "B 2" := by
  decide +kernel

end LegMachine
