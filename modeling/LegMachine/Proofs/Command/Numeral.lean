import LegMachine.Command.ListImage
import LegMachine.Proofs.Text.Case
import LegMachine.Proofs.Text.Digits
import LegMachine.Proofs.Text.Trim
import Mathlib.Data.Nat.Digits.Defs

/-!
# Numbers on the command line

A number is a plus sign or none and then digits, of which there is one at least. What is read is its
value, if that does not pass the limit (`readUnsigned_eq_ok`). The limit is tested at every digit,
but once it is passed no digit brings the value back (`le_valueFrom`). A word is read from a decimal
number, or from a hexadecimal one behind its mark, and everything else is refused (`readWord_eq_ok`,
`readWord_eq_error`).

The tool that lists an image takes off the blanks around a number (`trim_eq_iff`), the one that runs
an image does not. Both read back every word that is written in hexadecimal or in decimal
(`words_read_exactly`).
-/

namespace LegMachine.Text

/-! ## Digits -/

def lowerDigits : List Char :=
  ['0', '1', '2', '3', '4', '5', '6', '7', '8', '9', 'a', 'b', 'c', 'd', 'e', 'f']

def upperDigits : List Char :=
  ['0', '1', '2', '3', '4', '5', '6', '7', '8', '9', 'A', 'B', 'C', 'D', 'E', 'F']

/-- The character is the digit for `d` in a base, a letter in either case. -/
def IsDigit (base : Nat) (c : Char) (d : Nat) : Prop :=
  d < base ∧ (lowerDigits[d]? = some c ∨ upperDigits[d]? = some c)

theorem digitValue?_of_le {b : Nat} (hb : b ≤ 16) (c : Char) (d : Nat) :
    digitValue? b c = some d ↔ d < b ∧ digitValue? 16 c = some d := by
  have hbelow (value : Nat) : (if value < b then some value else none) = some d ↔
      d < b ∧ (if value < 16 then some value else none) = some d := by
    simp only [Option.ite_none_right_eq_some, Option.some.injEq]
    omega
  unfold digitValue?
  dsimp only
  split
  · exact hbelow _
  · split
    · exact hbelow _
    · split
      · exact hbelow _
      · simp

theorem digit_of_digitValue? (c : Char) :
    ∀ d ∈ digitValue? 16 c, lowerDigits[d]? = some c ∨ upperDigits[d]? = some c := by
  refine forall_char
    (P := fun c => ∀ d ∈ digitValue? 16 c, lowerDigits[d]? = some c ∨ upperDigits[d]? = some c)
    (by decide) (fun c h => ?_) c
  have hnine : ¬ c ≤ '9' := not_le_of_notAscii h (by decide)
  have hlower : ¬ c ≤ 'z' := not_le_of_notAscii h (by decide)
  have hupper : ¬ c ≤ 'Z' := not_le_of_notAscii h (by decide)
  simp [digitValue?, hnine, hlower, hupper]

theorem digitValue?_of_mem_zipIdx :
    ∀ p ∈ lowerDigits.zipIdx ++ upperDigits.zipIdx, digitValue? 16 p.1 = some p.2 := by
  decide

theorem digitValue?_eq_some {b : Nat} (hb : b ≤ 16) {c : Char} {d : Nat} :
    digitValue? b c = some d ↔ IsDigit b c d := by
  rw [digitValue?_of_le hb]
  refine and_congr_right fun _ => ⟨digit_of_digitValue? c d, fun h => ?_⟩
  refine digitValue?_of_mem_zipIdx (c, d) (List.mem_append.2 ?_)
  rwa [List.mem_zipIdx_iff_getElem?, List.mem_zipIdx_iff_getElem?]

/-! ## Values -/

/-- The value of digits behind a number that has the value `v`. -/
def valueFrom (base v : Nat) (values : List Nat) : Nat :=
  values.foldl (fun v d => d + base * v) v

theorem valueFrom_eq_ofDigits (base : Nat) (values : List Nat) :
    valueFrom base 0 values = Nat.ofDigits base values.reverse := by
  rw [Nat.ofDigits_eq_foldr, List.foldr_reverse]
  rfl

theorem le_valueFrom {base : Nat} (hbase : 0 < base) (v : Nat) (values : List Nat) :
    v ≤ valueFrom base v values := by
  induction values generalizing v with
  | nil => exact Nat.le_refl v
  | cons d rest ih =>
    have hgrows : v ≤ base * v := Nat.le_mul_of_pos_left v hbase
    have hrest : d + base * v ≤ valueFrom base v (d :: rest) := ih (d + base * v)
    omega

/-- Digits are read as their value, unless it passes the limit. -/
theorem readDigits_eq_ok {b limit : Nat} (hb : 0 < b) (hb' : b ≤ 16) {v n : Nat}
    (hv : v ≤ limit) (digits : List Char) :
    readDigits b limit v digits = .ok n ↔
      ∃ values, List.Forall₂ (IsDigit b) digits values ∧ valueFrom b v values = n ∧
        n ≤ limit := by
  induction digits generalizing v with
  | nil =>
    have hvalue : valueFrom b v [] = v := rfl
    simp only [readDigits, Except.ok.injEq, List.forall₂_nil_left_iff, exists_eq_left, hvalue]
    omega
  | cons c rest ih =>
    rw [readDigits]
    simp only [List.forall₂_cons_left_iff, ← digitValue?_eq_some hb']
    cases digitValue? b c with
    | none => simp
    | some d =>
      have hcomm : b * v + d = d + b * v := Nat.add_comm _ _
      dsimp only
      rw [hcomm]
      split
      · next hle =>
        rw [ih hle]
        constructor
        · rintro ⟨values, hdigits, hvalue⟩
          exact ⟨d :: values, ⟨d, values, rfl, hdigits, rfl⟩, hvalue⟩
        · rintro ⟨_, ⟨_, values, ⟨⟩, hdigits, rfl⟩, hvalue⟩
          exact ⟨values, hdigits, hvalue⟩
      · next hgt =>
        refine iff_of_false (by simp) ?_
        rintro ⟨_, ⟨_, values, ⟨⟩, -, rfl⟩, hvalue, hn⟩
        have hgrows : d + b * v ≤ valueFrom b v (d :: values) := le_valueFrom hb (d + b * v) values
        omega

/-! ## Numbers -/

/-- The digits of a number, of which there is one at least. -/
def DigitString (base : Nat) (digits : List Char) (n : Nat) : Prop :=
  digits ≠ [] ∧ ∃ values, List.Forall₂ (IsDigit base) digits values ∧
    Nat.ofDigits base values.reverse = n

/-- A number that may have a plus sign in front of its digits. -/
def Numeral (base : Nat) (text : List Char) (n : Nat) : Prop :=
  DigitString base text n ∨ ∃ digits, text = '+' :: digits ∧ DigitString base digits n

/-- A number in decimal, or in hexadecimal behind its mark. -/
def WordNumeral (text : List Char) (n : Nat) : Prop :=
  Numeral 10 text n ∨
    ∃ mark digits, (mark = 'x' ∨ mark = 'X') ∧ text = '0' :: mark :: digits ∧ Numeral 16 digits n

section Unsigned

variable {b : Nat} (hb : 0 < b) (hb' : b ≤ 16)

include hb' in
theorem DigitString.isDigit {digits : List Char} {n : Nat} (h : DigitString b digits n) :
    ∀ c ∈ digits, digitValue? b c ≠ none := by
  obtain ⟨-, values, hdigits, -⟩ := h
  induction hdigits with
  | nil => nofun
  | cons hd _ ih =>
    rw [List.forall_mem_cons, (digitValue?_eq_some hb').2 hd]
    exact ⟨nofun, ih⟩

theorem digitValue?_plus : ∀ b ≤ 16, digitValue? b '+' = none := by
  decide

include hb' in
theorem numeral_plus_iff {digits : List Char} {n : Nat} :
    Numeral b ('+' :: digits) n ↔ DigitString b digits n := by
  constructor
  · rintro (h | ⟨_, ⟨⟩, h⟩)
    · exact absurd (digitValue?_plus b hb') (h.isDigit hb' '+' List.mem_cons_self)
    · exact h
  · exact fun h => Or.inr ⟨digits, rfl, h⟩

theorem numeral_iff (digits : List Char) (h : ∀ rest, digits = '+' :: rest → False) {n : Nat} :
    Numeral b digits n ↔ DigitString b digits n :=
  or_iff_left fun ⟨rest, hrest, _⟩ => h rest hrest

theorem not_digitString_nil (n : Nat) : ¬ DigitString b [] n :=
  fun h => h.1 rfl

include hb hb' in
theorem readDigits_zero_eq_ok {limit n : Nat} {digits : List Char} (hne : digits ≠ []) :
    readDigits b limit 0 digits = .ok n ↔ DigitString b digits n ∧ n ≤ limit := by
  rw [readDigits_eq_ok hb hb' (Nat.zero_le limit)]
  simp only [DigitString, valueFrom_eq_ofDigits, ne_eq, hne, not_false_eq_true, true_and,
    exists_and_right, ← and_assoc]

include hb hb' in
/-- What is read is what is a number and does not pass the limit. -/
theorem readUnsigned_eq_ok {limit n : Nat} (text : List Char) :
    readUnsigned b limit text = .ok n ↔ Numeral b text n ∧ n ≤ limit := by
  unfold readUnsigned
  split
  · rw [numeral_iff [] nofun]
    exact iff_of_false nofun fun h => not_digitString_nil n h.1
  · rw [numeral_plus_iff hb']
    exact iff_of_false nofun fun h => not_digitString_nil n h.1
  · next hne =>
    rw [numeral_plus_iff hb', readDigits_zero_eq_ok hb hb' hne]
  · next hne _ hplus =>
    rw [numeral_iff _ hplus, readDigits_zero_eq_ok hb hb' hne]

end Unsigned

/-- Behind a mark there is a number in hexadecimal and nothing else. -/
theorem wordNumeral_mark_iff {mark : Char} (hmark : mark = 'x' ∨ mark = 'X') (digits : List Char)
    (n : Nat) : WordNumeral ('0' :: mark :: digits) n ↔ Numeral 16 digits n := by
  constructor
  · rintro (h | ⟨_, _, -, ⟨⟩, h⟩)
    · -- Read in decimal, the mark would have to be a digit.
      have hnone : digitValue? 10 mark = none := by
        rcases hmark with rfl | rfl <;> decide
      rw [numeral_iff ('0' :: mark :: digits) nofun] at h
      exact absurd hnone (h.isDigit (by decide) mark (by simp))
    · exact h
  · exact fun h => Or.inr ⟨mark, digits, hmark, rfl, h⟩

/-- The numbers that are words are those that fit into one. -/
theorem map_readUnsigned_eq_ok {b : Nat} (hb : 0 < b) (hb' : b ≤ 16) (text : List Char)
    (w : Word) : (readUnsigned b 0xFFFFFFFF text).map (BitVec.ofNat 32) = .ok w ↔
      Numeral b text w.toNat := by
  have hmap : (readUnsigned b 0xFFFFFFFF text).map (BitVec.ofNat 32) = .ok w ↔
      ∃ n, readUnsigned b 0xFFFFFFFF text = .ok n ∧ BitVec.ofNat 32 n = w := by
    cases readUnsigned b 0xFFFFFFFF text <;> simp [Except.map]
  rw [hmap]
  simp only [readUnsigned_eq_ok hb hb']
  constructor
  · rintro ⟨n, ⟨hn, hle⟩, rfl⟩
    rwa [BitVec.toNat_ofNat, Nat.mod_eq_of_lt (by omega)]
  · intro h
    have hword : w.toNat ≤ 0xFFFFFFFF := Nat.le_sub_one_of_lt w.isLt
    exact ⟨w.toNat, ⟨h, hword⟩, by rw [BitVec.ofNat_toNat, BitVec.setWidth_eq]⟩

/-- A word is read from the numbers that have its value, and from nothing else. -/
theorem readWord_eq_ok (text : List Char) (w : Word) :
    readWord text = .ok w ↔ WordNumeral text w.toNat := by
  unfold readWord
  split
  · rw [map_readUnsigned_eq_ok (by decide) (by decide), wordNumeral_mark_iff (Or.inl rfl)]
  · rw [map_readUnsigned_eq_ok (by decide) (by decide), wordNumeral_mark_iff (Or.inr rfl)]
  · next hlower hupper =>
    rw [map_readUnsigned_eq_ok (by decide) (by decide)]
    refine (or_iff_left ?_).symm
    rintro ⟨mark, digits, rfl | rfl, htext, -⟩
    · exact hlower digits htext
    · exact hupper digits htext

/-- What is refused is what is no number, or a number that no word can hold. -/
theorem readWord_eq_error (text : List Char) :
    (∃ e, readWord text = .error e) ↔ ¬ ∃ n < 2 ^ 32, WordNumeral text n := by
  cases h : readWord text with
  | error e =>
    refine iff_of_true ⟨e, rfl⟩ ?_
    rintro ⟨n, hn, hnumeral⟩
    have hvalue : (BitVec.ofNat 32 n).toNat = n := by
      rw [BitVec.toNat_ofNat, Nat.mod_eq_of_lt hn]
    rw [(readWord_eq_ok text (BitVec.ofNat 32 n)).2 (by rwa [hvalue])] at h
    cases h
  | ok w =>
    refine iff_of_false nofun (not_not_intro ?_)
    exact ⟨w.toNat, w.isLt, (readWord_eq_ok text w).1 h⟩

theorem decimal_natCast (n : Nat) : decimal n = Nat.toDigits 10 n := by
  rw [decimal, if_neg (by omega), Int.natAbs_natCast]

theorem readWord_decimal (w : Word) : readWord (decimal w.toNat) = .ok w := by
  have hword : w.toNat ≤ 0xFFFFFFFF := Nat.le_sub_one_of_lt w.isLt
  have hread : readUnsigned 10 0xFFFFFFFF (decimal w.toNat) = .ok w.toNat := by
    rw [decimal_natCast, readUnsigned_toDigits (by decide) (by decide) hword]
  have hnumeral := (readUnsigned_eq_ok (by decide) (by decide) _).1 hread
  exact (readWord_eq_ok _ w).2 (Or.inl hnumeral.1)

theorem isAlphanum_hexWord (w : Word) : ∀ c ∈ hexWord w, c.isAlphanum = true := by
  have hdigits := isAlphanum_of_mem_leftpad (b := 16) (n := w.toNat) (by decide) (by decide) 8
  exact List.forall_mem_cons.2 ⟨by decide, List.forall_mem_cons.2 ⟨by decide, hdigits⟩⟩

end LegMachine.Text

namespace LegMachine.Command

open Text

/-- Both tools read the text as the word. -/
def ReadByBoth (text : List Char) (w : Word) : Prop :=
  readWord text = .ok w ∧ readSpacedWord text = .ok w

theorem readByBoth_of_isAlphanum {text : List Char} {w : Word}
    (htext : ∀ c ∈ text, c.isAlphanum = true) (hread : readWord text = .ok w) :
    ReadByBoth text w := by
  have htrim := IsTrimmed.of_notBlank fun c hc => isBlank_of_isAlphanum c (htext c hc)
  refine ⟨hread, ?_⟩
  rw [readSpacedWord, htrim.trim_eq, hread]

theorem readByBoth_hexWord (w : Word) : ReadByBoth (hexWord w) w :=
  readByBoth_of_isAlphanum (isAlphanum_hexWord w) (readWord_hexWord w)

theorem readByBoth_decimal (w : Word) : ReadByBoth (decimal w.toNat) w := by
  refine readByBoth_of_isAlphanum (fun c hc => ?_) (readWord_decimal w)
  rw [decimal_natCast] at hc
  exact isAlphanum_of_mem_toDigits (by decide) (by decide) hc

/-- Every listed line begins with its address in hexadecimal. -/
theorem takeWhile_render (showBytes : Bool) (l : Line) :
    (l.render showBytes).takeWhile (· ≠ ':') = hexWord l.address := by
  have hcolon : ∀ c ∈ hexWord l.address, decide (c ≠ ':') = true := by
    intro c hc
    rw [decide_eq_true_iff]
    rintro rfl
    exact absurd (isAlphanum_hexWord l.address ':' hc) (by decide)
  rw [Line.render, List.takeWhile_append_of_pos hcolon]
  simp

/-- A word is read from the numbers of 32 bits and from nothing else, by one tool with and by the
other without blanks around it. Every word that is printed in hexadecimal or in decimal, such as the
address of a listed line, is read back by both. -/
theorem words_read_exactly :
    (∀ text w, readWord text = .ok w ↔ WordNumeral text w.toNat) ∧
    (∀ text, (∃ e, readWord text = .error e) ↔ ¬ ∃ n < 2 ^ 32, WordNumeral text n) ∧
    (∀ text, ∃ inner, (∀ other, IsTrimmed text other ↔ other = inner) ∧
      readSpacedWord text = readWord inner) ∧
    (∀ w, ReadByBoth (hexWord w) w) ∧
    (∀ w : Word, ReadByBoth (decimal w.toNat) w) ∧
    ∀ showBytes (l : Line),
      ReadByBoth ((l.render showBytes).takeWhile (· ≠ ':')) l.address := by
  refine ⟨readWord_eq_ok, readWord_eq_error, fun text => ⟨trim text, fun other => ?_, rfl⟩,
    readByBoth_hexWord, readByBoth_decimal, fun showBytes l => ?_⟩
  · rw [← trim_eq_iff, eq_comm]
  · rw [takeWhile_render]
    exact readByBoth_hexWord l.address

/-- A sign may stand behind the mark of a number, and blanks around it. -/
example : readSpacedWord " 0X+00fF\n".toList = .ok 255 := by decide

end LegMachine.Command
