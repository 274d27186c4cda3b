import LegMachine.Isa.Catalog
import LegMachine.Proofs.Text.Case

/-!
# Finding mnemonics

An entry is found by its mnemonic or by the beginning of it. Both comparisons are of bytes up to the
case of ASCII letters, and the entries whose mnemonic is a text are those whose mnemonic begins with
it and is as long (`mnemonics_agree`).
-/

namespace LegMachine

/-- The two lookups of mnemonics agree. Both compare bytes up to the case of ASCII letters and keep
the order of the catalog; one finds those of the other's entries whose mnemonics are as long as the
text. A longer text finds fewer entries, an empty one finds all, and every entry is found. -/
theorem mnemonics_agree (catalog : List Descriptor) (p q : List Char) :
    withMnemonic catalog p =
      catalog.filter (fun d => Text.equalIgnoringCase (Text.utf8 d.mnemonic) (Text.utf8 p)) ∧
    withMnemonicStart catalog p =
      catalog.filter (fun d => ((Text.utf8 p).map Text.foldByte).isPrefixOf
        ((Text.utf8 d.mnemonic).map Text.foldByte)) ∧
    withMnemonic catalog p =
      (withMnemonicStart catalog p).filter
        (fun d => Text.byteLength d.mnemonic == Text.byteLength p) ∧
    (withMnemonic catalog p).Sublist catalog ∧ (withMnemonicStart catalog p).Sublist catalog ∧
    (∀ p', Text.SameLetters p p' → withMnemonic catalog p' = withMnemonic catalog p ∧
      withMnemonicStart catalog p' = withMnemonicStart catalog p) ∧
    (withMnemonicStart catalog (p ++ q)).Sublist (withMnemonicStart catalog p) ∧
    withMnemonicStart catalog [] = catalog ∧
    ∀ d ∈ catalog, d ∈ withMnemonic catalog d.mnemonic := by
  refine ⟨?_, ?_, ?_, List.filter_sublist, List.filter_sublist, ?_, ?_, ?_, ?_⟩
  · refine List.filter_congr fun d _ => ?_
    rw [Bool.eq_iff_iff, beq_iff_eq, Text.equalIgnoringCase_utf8]
  · refine List.filter_congr fun d _ => ?_
    rw [← Text.utf8_foldCase, ← Text.utf8_foldCase, Bool.eq_iff_iff, List.isPrefixOf_iff_prefix,
      List.isPrefixOf_iff_prefix, Text.utf8_isPrefix]
  · unfold withMnemonic withMnemonicStart
    rw [List.filter_filter]
    refine List.filter_congr fun d _ => ?_
    rw [Bool.eq_iff_iff, beq_iff_eq, Bool.and_eq_true, beq_iff_eq, List.isPrefixOf_iff_prefix,
      Text.foldCase_eq_iff, and_comm]
  · intro p' hsame
    unfold withMnemonic withMnemonicStart
    rw [hsame.foldCase_eq]
    exact ⟨rfl, rfl⟩
  · refine List.monotone_filter_right _ fun d hd => ?_
    rw [List.isPrefixOf_iff_prefix, Text.foldCase_append] at hd
    exact List.isPrefixOf_iff_prefix.2 ((List.prefix_append _ _).trans hd)
  · exact List.filter_eq_self.2 fun _ _ => rfl
  · intro d hd
    exact List.mem_filter.2 ⟨hd, beq_self_eq_true _⟩

/-- Two entries share a mnemonic, a third one has it with a letter beyond ASCII behind it, and the
last one is blank. -/
theorem mnemonics_agree_overloaded :
    let entry (sample : String) : Descriptor := { Catalog.idle[0] with sample }
    let catalog := [entry "CBZ X1,label", entry "cbz X1,-100", entry "CBZé 1", entry "  "]
    let p := ['c', 'B', 'z']
    let p' := ['C', 'b', 'Z']
    Text.SameLetters p p' ∧ entry "  " ∈ catalog ∧
      withMnemonic catalog p' = withMnemonic catalog p ∧
      withMnemonic catalog p = [entry "CBZ X1,label", entry "cbz X1,-100"] ∧
      withMnemonicStart catalog p' =
        [entry "CBZ X1,label", entry "cbz X1,-100", entry "CBZé 1"] ∧
      (entry "CBZé 1").mnemonic.length = 4 ∧ Text.byteLength (entry "CBZé 1").mnemonic = 5 ∧
      entry "  " ∈ withMnemonic catalog (entry "  ").mnemonic := by
  intro entry catalog p p'
  have hsame : Text.SameLetters p p' :=
    .cons (.inr (.inr (by decide))) (.cons (.inr (.inl (by decide)))
      (.cons (.inr (.inr (by decide))) .nil))
  have hmem : entry "  " ∈ catalog := by simp [catalog]
  obtain ⟨-, -, -, -, -, hcase, -, -, hfinds⟩ := mnemonics_agree catalog p []
  obtain ⟨hexact, hstart⟩ := hcase p' hsame
  refine ⟨hsame, hmem, hexact, by decide, ?_, by decide, by decide, hfinds _ hmem⟩
  rw [hstart]
  decide

end LegMachine
