import LegMachine.Machine.FlagText
import LegMachine.Proofs.Text.Digits
import LegMachine.Proofs.Text.Trim

/-!
# Flags are read back from their text

The text of some flags is split at its bars into the parts that it was put together from, each part
is read back as the bits that it names, and together those are all bits of the register, the spare
ones included (`ofText?_toText`).
-/

namespace LegMachine.Text

/-! ## Splitting and trimming -/

theorem splitAt_of_notMem {separator : Char} {piece : List Char} (h : separator ∉ piece) :
    splitAt separator piece = [piece] := by
  induction piece with
  | nil => rfl
  | cons c piece ih =>
    rw [List.mem_cons, not_or] at h
    rw [splitAt, if_neg fun e => h.1 e.symm, ih h.2]

theorem splitAt_append {separator : Char} {piece : List Char} (h : separator ∉ piece)
    (rest : List Char) :
    splitAt separator (piece ++ separator :: rest) = piece :: splitAt separator rest := by
  induction piece with
  | nil => rw [List.nil_append, splitAt, if_pos rfl]
  | cons c piece ih =>
    rw [List.mem_cons, not_or] at h
    rw [List.cons_append, splitAt, if_neg fun e => h.1 e.symm, ih h.2]

/-- A text that is not empty and has no blanks. -/
def IsWord (word : List Char) : Prop :=
  word ≠ [] ∧ ∀ c ∈ word, isBlank c = false

theorem isBlank_nil : ∀ c ∈ ([] : List Char), isBlank c = true := nofun

theorem isWord_singleton {c : Char} (hc : isBlank c = false) : IsWord [c] :=
  ⟨List.cons_ne_nil c [], List.forall_mem_singleton.2 hc⟩

/-- A word is what is left of it with blanks around it. -/
theorem trim_word {before word after : List Char} (hbefore : ∀ c ∈ before, isBlank c = true)
    (hword : IsWord word) (hafter : ∀ c ∈ after, isBlank c = true) :
    trim (before ++ (word ++ after)) = word := by
  refine IsTrimmed.trim_eq ⟨⟨before, after, rfl, hbefore, hafter⟩, fun c hc => ?_, fun c hc => ?_⟩
  · exact hword.2 c (List.mem_of_mem_head? hc)
  · exact hword.2 c (List.mem_of_mem_getLast? hc)

theorem trim_append_ne_nil {word : List Char} (hword : IsWord word) (rest : List Char) :
    trim (word ++ rest) ≠ [] := by
  intro htrim
  obtain ⟨⟨front, back, htext, hfront, hback⟩, -, -⟩ := (trim_eq_iff _ _).1 htrim
  obtain ⟨c, tail, rfl⟩ := List.exists_cons_of_ne_nil hword.1
  have hc : c ∈ front ++ ([] ++ back) := htext ▸ List.mem_append_left rest List.mem_cons_self
  have hblank : isBlank c = true := (List.mem_append.1 hc).elim (hfront c) (hback c)
  rw [hword.2 c List.mem_cons_self] at hblank
  cases hblank

/-- Words that stand between bars are found again, whatever blanks precede the first one. -/
theorem trim_splitAt_intercalate {word : List Char} {words : List (List Char)}
    (hwords : ∀ w ∈ word :: words, IsWord w ∧ '|' ∉ w) {before : List Char}
    (hbefore : ∀ c ∈ before, isBlank c = true) :
    (splitAt '|' (before ++ [' ', '|', ' '].intercalate (word :: words))).map trim =
      word :: words := by
  have hbar : '|' ∉ before := fun h => absurd (hbefore _ h) (by decide)
  obtain ⟨hword, hnot⟩ := hwords word List.mem_cons_self
  induction words generalizing word before with
  | nil =>
    have htrim := trim_word hbefore hword isBlank_nil
    rw [List.append_nil] at htrim
    rw [List.intercalate_singleton, splitAt_of_notMem (by simp [hbar, hnot]), List.map_singleton,
      htrim]
  | cons next words ih =>
    have hpiece : '|' ∉ before ++ (word ++ [' ']) := by simp [hbar, hnot]
    have hsplit : before ++ [' ', '|', ' '].intercalate (word :: next :: words) =
        (before ++ (word ++ [' '])) ++
          '|' :: ([' '] ++ [' ', '|', ' '].intercalate (next :: words)) := by
      simp [List.intercalate_cons_cons]
    have hspace : ∀ c ∈ [' '], isBlank c = true := List.forall_mem_singleton.2 (by decide)
    obtain ⟨hnext, hnextNot⟩ := hwords next (by simp)
    rw [hsplit, splitAt_append hpiece, List.map_cons, trim_word hbefore hword hspace,
      ih (fun w hw => hwords w (List.mem_cons_of_mem _ hw)) hspace (by decide) hnext hnextNot]

end LegMachine.Text

namespace LegMachine

/-- What is written item by item is read item by item. -/
theorem mapM_map_eq_some {α β γ : Type} {read : β → Option γ} {write : α → β} {value : α → γ}
    {items : List α} (h : ∀ a ∈ items, read (write a) = some (value a)) :
    (items.map write).mapM read = some (items.map value) := by
  induction items with
  | nil => rfl
  | cons a items ih =>
    have hitems := ih fun b hb => h b (List.mem_cons_of_mem _ hb)
    simp [List.mapM_cons, h a List.mem_cons_self, hitems]

namespace Flags

/-! ## The parts of a text -/

theorem digitChar_notBlank : ∀ d < 16, Text.isBlank d.digitChar = false ∧ d.digitChar ≠ '|' := by
  decide

def sparePart (f : Flags) : List Char :=
  '0' :: 'x' :: Nat.toDigits 16 f.spare.toNat

theorem isWord_sparePart (f : Flags) : Text.IsWord f.sparePart ∧ '|' ∉ f.sparePart := by
  have hdigits : ∀ c ∈ Nat.toDigits 16 f.spare.toNat, Text.isBlank c = false ∧ c ≠ '|' := by
    intro c hc
    obtain ⟨d, hd, rfl⟩ := Text.mem_toDigits (by decide) hc
    exact digitChar_notBlank d hd
  have hall : ∀ c ∈ f.sparePart, Text.isBlank c = false ∧ c ≠ '|' := by
    intro c hc
    rcases List.mem_cons.1 hc with rfl | hc
    · decide
    · rcases List.mem_cons.1 hc with rfl | hc
      · decide
      · exact hdigits c hc
  exact ⟨⟨List.cons_ne_nil _ _, fun c hc => (hall c hc).1⟩, fun h => (hall _ h).2 rfl⟩

theorem isWord_of_mem_named {q : List Char × BitVec 8} (h : q ∈ named) :
    Text.IsWord q.1 ∧ '|' ∉ q.1 := by
  simp only [named, List.mem_cons, List.not_mem_nil, or_false] at h
  rcases h with rfl | rfl | rfl | rfl <;>
    exact ⟨Text.isWord_singleton (by decide), by decide⟩

theorem isWord_of_mem_parts {f : Flags} {part : List Char} (h : part ∈ f.parts) :
    Text.IsWord part ∧ '|' ∉ part := by
  rcases List.mem_append.1 h with h | h
  · obtain ⟨q, hq, rfl⟩ := List.mem_map.1 h
    exact isWord_of_mem_named (List.mem_filter.1 hq).1
  · split at h
    · cases h
    · rw [List.mem_singleton.1 h]
      exact isWord_sparePart f

def partBits (f : Flags) : List (BitVec 8) :=
  (named.filter fun (_, bit) => f.bits &&& bit != 0).map (·.2) ++
    if f.spare = 0 then [] else [f.spare]

theorem partBits?_sparePart (f : Flags) : partBits? f.sparePart = some f.spare := by
  have hlimit : f.spare.toNat ≤ 255 := Nat.le_of_lt_succ f.spare.isLt
  have hread : Text.readUnsigned 16 255 (Nat.toDigits 16 f.spare.toNat) = .ok f.spare.toNat :=
    Text.readUnsigned_toDigits (by decide) (by decide) hlimit
  rw [sparePart, partBits?, hread]
  simp

theorem mapM_partBits? (f : Flags) : f.parts.mapM partBits? = some f.partBits := by
  have hnamed : ∀ q ∈ named, partBits? q.1 = some q.2 := by decide
  have hmap : ((named.filter fun (_, bit) => f.bits &&& bit != 0).map (·.1)).mapM partBits? =
      some ((named.filter fun (_, bit) => f.bits &&& bit != 0).map (·.2)) :=
    mapM_map_eq_some fun q hq => hnamed q (List.mem_filter.1 hq).1
  rw [parts, partBits, List.mapM_append, hmap]
  split
  · rfl
  · have hspare := partBits?_sparePart f
    rw [sparePart] at hspare
    simp [List.mapM_cons, hspare]

/-- Named and spare bits together are the register. -/
theorem foldl_partBits (f : Flags) : f.partBits.foldl (· ||| ·) 0 = f.bits := by
  obtain ⟨bits⟩ := f
  revert bits
  decide +kernel

/-- Any flags are read back from their text, the bits included that are no flags. -/
theorem ofText?_toText (f : Flags) : ofText? f.toText = some f := by
  have hbits := mapM_partBits? f
  have hfold := foldl_partBits f
  have hwords : ∀ w ∈ f.parts, Text.IsWord w ∧ '|' ∉ w := fun w hw => isWord_of_mem_parts hw
  rw [toText, ofText?]
  cases hparts : f.parts with
  | nil =>
    rw [hparts] at hbits
    rw [← Option.some.inj hbits] at hfold
    exact congrArg (fun bits => some (⟨bits⟩ : Flags)) hfold
  | cons word words =>
    rw [hparts] at hbits hwords
    have htrim : Text.trim ([' ', '|', ' '].intercalate (word :: words)) ≠ [] := by
      cases words with
      | nil =>
        rw [List.intercalate_singleton, ← List.append_nil word]
        exact Text.trim_append_ne_nil (hwords word List.mem_cons_self).1 []
      | cons next words =>
        rw [List.intercalate_cons_cons, List.append_assoc]
        exact Text.trim_append_ne_nil (hwords word List.mem_cons_self).1 _
    have hsplit := Text.trim_splitAt_intercalate hwords Text.isBlank_nil
    rw [List.nil_append] at hsplit
    have hparse : (Text.splitAt '|' ([' ', '|', ' '].intercalate (word :: words))).mapM
        (partBits? ∘ Text.trim) = some f.partBits := by
      rw [← List.mapM_map, hsplit, hbits]
    rw [if_neg (by rw [List.isEmpty_iff]; exact htrim)]
    show Option.map _ (List.mapM (partBits? ∘ Text.trim) _) = _
    rw [hparse, Option.map_some, hfold]

end Flags

end LegMachine
