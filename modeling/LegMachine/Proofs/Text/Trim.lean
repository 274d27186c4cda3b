import LegMachine.Text.Blank
import LegMachine.Proofs.Text.Case
import Mathlib.Data.List.DropRight

/-!
# Blanks around a text

A scan stops in front of what it does not drop (`eq_false_of_mem_head?_dropWhile`), so taking off
the blanks around a text leaves the one text in its middle that neither begins nor ends with a blank
(`trim_eq_iff`). No letter and no digit is a blank (`isBlank_of_isAlphanum`).
-/

namespace LegMachine.Text

/-! ## Where a scan stops -/

/-- Where dropping stops the predicate does not hold. -/
theorem eq_false_of_mem_head?_dropWhile {α : Type} {p : α → Bool} {l : List α} {a : α}
    (h : a ∈ (l.dropWhile p).head?) : p a = false := by
  have hhead := List.head?_dropWhile_not p l
  rw [Option.mem_def.1 h] at hhead
  exact hhead

/-! ## Trimmed texts -/

/-- The second text is the first one without the blanks at its ends. -/
structure IsTrimmed (text inner : List Char) : Prop where
  surrounded : ∃ front back, text = front ++ (inner ++ back) ∧
    (∀ c ∈ front, isBlank c = true) ∧ ∀ c ∈ back, isBlank c = true
  head : ∀ c ∈ inner.head?, isBlank c = false
  last : ∀ c ∈ inner.getLast?, isBlank c = false

theorem IsTrimmed.of_notBlank {text : List Char} (h : ∀ c ∈ text, isBlank c = false) :
    IsTrimmed text text where
  surrounded := ⟨[], [], by simp, nofun, nofun⟩
  head c hc := h c (List.mem_of_mem_head? hc)
  last c hc := h c (List.mem_of_mem_getLast? hc)

theorem dropWhile_isBlank_append {front text : List Char} (hfront : ∀ c ∈ front, isBlank c = true)
    (htext : ∀ c ∈ text.head?, isBlank c = false) : (front ++ text).dropWhile isBlank = text := by
  rw [List.dropWhile_append_of_pos hfront]
  cases text with
  | nil => rfl
  | cons c rest => rw [List.dropWhile_cons_of_neg (by rw [htext c rfl]; decide)]

theorem IsTrimmed.trim_eq {text inner : List Char} (h : IsTrimmed text inner) :
    trim text = inner := by
  obtain ⟨⟨front, back, rfl, hfront, hback⟩, hhead, hlast⟩ := h
  -- In a text of blanks the scan from the front takes all of them, and leaves none for the other.
  rcases inner with _ | ⟨c, rest⟩
  · have hall : ∀ c ∈ front ++ back, isBlank c = true :=
      List.forall_mem_append.2 ⟨hfront, hback⟩
    rw [List.nil_append, trim, trimStart, List.dropWhile_eq_nil_iff.2 hall]
    rfl
  · have hreverse : ∀ d ∈ back.reverse, isBlank d = true :=
      fun d hd => hback d (List.mem_reverse.1 hd)
    have hend : ∀ d ∈ (c :: rest).reverse.head?, isBlank d = false := by
      rwa [List.head?_reverse]
    have hstart : trimStart (front ++ (c :: rest ++ back)) = c :: rest ++ back :=
      dropWhile_isBlank_append hfront hhead
    rw [trim, hstart, List.reverse_append, dropWhile_isBlank_append hreverse hend,
      List.reverse_reverse]

theorem isTrimmed_trim (text : List Char) : IsTrimmed text (trim text) := by
  have hback : trim text ++ (trimStart text).rtakeWhile isBlank = trimStart text :=
    List.rdropWhile_append_rtakeWhile ..
  refine ⟨⟨text.takeWhile isBlank, (trimStart text).rtakeWhile isBlank, ?_, ?_, ?_⟩, ?_, ?_⟩
  · rw [hback]
    exact List.takeWhile_append_dropWhile.symm
  · exact fun c hc => List.mem_takeWhile_imp hc
  · exact fun c hc => List.mem_rtakeWhile_imp hc
  · intro c hc
    have hhead : c ∈ (trimStart text).head? := by
      rw [← hback, List.head?_append, Option.mem_def.1 hc]
      rfl
    exact eq_false_of_mem_head?_dropWhile hhead
  · intro c hc
    rw [trim, List.getLast?_reverse] at hc
    exact eq_false_of_mem_head?_dropWhile hc

/-- Taking off the blanks leaves the one text that is trimmed. -/
theorem trim_eq_iff (text inner : List Char) : trim text = inner ↔ IsTrimmed text inner :=
  ⟨fun h => h ▸ isTrimmed_trim text, IsTrimmed.trim_eq⟩

/-! ## Letters and digits -/

theorem isAlphanum_of_notAscii {c : Char} (h : 128 ≤ c.toNat) : c.isAlphanum = false := by
  have hupper : c.isUpper = false :=
    decide_eq_false fun hc => not_le_of_notAscii h (by decide : 'Z'.toNat < 128) hc.2
  have hlower : c.isLower = false :=
    Bool.and_eq_false_iff.2 (Or.inr (decide_eq_false (not_le_of_notAscii h (by decide))))
  have hdigit : c.isDigit = false :=
    Bool.and_eq_false_iff.2 (Or.inr (decide_eq_false (not_le_of_notAscii h (by decide))))
  show ((c.isUpper || c.isLower) || c.isDigit) = false
  rw [hupper, hlower, hdigit]
  rfl

theorem isBlank_of_isAlphanum : ∀ c : Char, c.isAlphanum = true → isBlank c = false :=
  forall_char (by decide) fun c hc h => by
    rw [isAlphanum_of_notAscii hc] at h
    cases h

end LegMachine.Text
