import LegMachine.Disasm.Text
import LegMachine.Proofs.Isa.Encoding
import LegMachine.Proofs.Machine.Processor
import LegMachine.Proofs.Text.Digits

/-!
# Operands that are read back from a text

An operand is written with letters, digits and minus signs, and is found again where something else
follows it (`append_inj_of_separated`). So a row of pieces that shows every operand whole and sets
it off from what follows gives different texts for different operands (`renderAll_injective`), and
two rows of which one has a character where the other has an operand without it never give one text
(`renderAll_ne_of_apart`).
-/

namespace LegMachine

def isOperandChar (c : Char) : Bool :=
  c.isAlphanum || c == '-'

/-- The text does not go on with an operand. -/
def Separated (text : List Char) : Prop :=
  text.takeWhile isOperandChar = []

theorem append_inj_of_separated {a b s t : List Char} (ha : ∀ c ∈ a, isOperandChar c = true)
    (hb : ∀ c ∈ b, isOperandChar c = true) (hs : Separated s) (ht : Separated t)
    (h : a ++ s = b ++ t) : a = b ∧ s = t := by
  have hab := congrArg (List.takeWhile isOperandChar) h
  rw [List.takeWhile_append_of_pos ha, List.takeWhile_append_of_pos hb, hs, ht, List.append_nil,
    List.append_nil] at hab
  subst hab
  exact ⟨rfl, List.append_cancel_left h⟩

/-! ## The characters of an operand -/

def isDecimalChar (c : Char) : Bool :=
  c.isDigit || c == '-'

theorem isOperandChar_of_isDecimalChar {c : Char} (h : isDecimalChar c = true) :
    isOperandChar c = true := by
  unfold isDecimalChar at h
  unfold isOperandChar Char.isAlphanum
  rcases Bool.or_eq_true_iff.1 h with h | h <;> simp [h]

theorem isDecimalChar_of_mem_decimal {z : Int} {c : Char} (hc : c ∈ Text.decimal z) :
    isDecimalChar c = true := by
  have hdigit : ∀ {n}, c ∈ Nat.toDigits 10 n → isDecimalChar c = true := by
    intro n hc
    rw [isDecimalChar, Nat.isDigit_of_mem_toDigits (by decide) (by decide) hc, Bool.true_or]
  unfold Text.decimal at hc
  split at hc
  · rcases List.mem_cons.1 hc with rfl | hc
    · rfl
    · exact hdigit hc
  · exact hdigit hc

theorem decimal_ne_nil (z : Int) : Text.decimal z ≠ [] := by
  unfold Text.decimal
  split
  · exact List.cons_ne_nil _ _
  · exact Nat.toDigits_ne_nil

theorem isOperandChar_of_mem_hexadecimal {digits : List Char}
    (h : ∀ c ∈ digits, c.isAlphanum = true) {c : Char} (hc : c ∈ '0' :: 'x' :: digits) :
    isOperandChar c = true := by
  have halnum : c.isAlphanum = true := by
    rcases List.mem_cons.1 hc with rfl | hc
    · rfl
    rcases List.mem_cons.1 hc with rfl | hc
    · rfl
    exact h c hc
  rw [isOperandChar, halnum, Bool.true_or]

theorem isOperandChar_of_mem_hexWord {w : Word} {c : Char} (hc : c ∈ Text.hexWord w) :
    isOperandChar c = true :=
  isOperandChar_of_mem_hexadecimal
    (Text.isAlphanum_of_mem_leftpad (by decide) (by decide) 8) hc

theorem isOperandChar_of_mem_hexShort {w : Word} {c : Char} (hc : c ∈ Text.hexShort w) :
    isOperandChar c = true :=
  isOperandChar_of_mem_hexadecimal
    (fun _ => Text.isAlphanum_of_mem_toDigits (by decide) (by decide)) hc

theorem x_mem_hexWord (w : Word) : 'x' ∈ Text.hexWord w :=
  List.mem_cons_of_mem _ List.mem_cons_self

theorem x_mem_hexShort (w : Word) : 'x' ∈ Text.hexShort w :=
  List.mem_cons_of_mem _ List.mem_cons_self

/-! ## One operand -/

theorem setWidth_signExtendLow {n : Nat} (hn : n ≤ 32) (w : Word) :
    (signExtendLow n w).setWidth n = w.setWidth n := by
  apply BitVec.eq_of_getLsbD_eq
  intro i hi
  have hlt : i < 32 := by omega
  rw [signExtendLow, BitVec.getLsbD_setWidth, BitVec.getLsbD_signExtend]
  simp [hi, hlt]

theorem signExtendLow_inj {n : Nat} (hn : n ≤ 32) {v w : Word} (hv : v.toNat < 2 ^ n)
    (hw : w.toNat < 2 ^ n) (h : (signExtendLow n v).setWidth n = (signExtendLow n w).setWidth n) :
    v = w := by
  rw [setWidth_signExtendLow hn, setWidth_signExtendLow hn] at h
  rw [← zeroExtendLow_eq_self hv, ← zeroExtendLow_eq_self hw, zeroExtendLow, zeroExtendLow, h]

theorem setWidth_eq_of_shiftLeft_eq {n k : Nat} (hn : n + k ≤ 32) {v w : Word}
    (h : v <<< k = w <<< k) : v.setWidth n = w.setWidth n := by
  apply BitVec.eq_of_getLsbD_eq
  intro i hi
  have hlt : i + k < 32 := by omega
  have hin : ¬ i + k < k := by omega
  have hbit : (v <<< k).getLsbD (i + k) = (w <<< k).getLsbD (i + k) := by rw [h]
  simp only [BitVec.getLsbD_shiftLeft, hlt, hin, Nat.add_sub_cancel, decide_true, decide_false,
    Bool.not_false, Bool.true_and] at hbit
  rw [BitVec.getLsbD_setWidth, BitVec.getLsbD_setWidth, hbit]

namespace Piece

/-- Whether a field of some width is shown whole where the piece stands. -/
def showsAll (format : Format) (width : Nat) : Piece → Bool
  | verbatim _ => false
  | register bank _ => bank.isAlphanum
  | number _ => true
  | signedNumber _ => width ≤ 32
  | target => width ≤ 26
  | label => format != .iBranch || width ≤ 16

variable {format : Format} {pc : Word} {width : Nat}

theorem isOperandChar_of_mem_render {p : Piece} (hp : p.showsAll format width = true) {v : Word}
    {c : Char} (hc : c ∈ p.render format pc v width) : isOperandChar c = true := by
  cases p with
  | verbatim d => cases hp
  | register bank digits =>
    rcases List.mem_cons.1 hc with rfl | hc
    · rw [isOperandChar, show c.isAlphanum = true from hp, Bool.true_or]
    · exact isOperandChar_of_isDecimalChar (isDecimalChar_of_mem_decimal hc)
  | number digits | signedNumber digits =>
    exact isOperandChar_of_isDecimalChar (isDecimalChar_of_mem_decimal hc)
  | target => exact isOperandChar_of_mem_hexWord hc
  | label =>
    simp only [render] at hc
    split at hc
    · exact isOperandChar_of_mem_hexWord hc
    · exact isOperandChar_of_mem_hexShort hc

/-- No two values of a field are written alike. -/
theorem render_injective {p : Piece} (hp : p.showsAll format width = true) {v w : Word}
    (hv : v.toNat < 2 ^ width) (hw : w.toNat < 2 ^ width)
    (h : p.render format pc v width = p.render format pc w width) : v = w := by
  have hwiden : ∀ {n : Nat}, width ≤ n → v.toNat < 2 ^ n ∧ w.toNat < 2 ^ n := fun hn =>
    have hpow := Nat.pow_le_pow_right (Nat.succ_pos 1) hn
    ⟨Nat.lt_of_lt_of_le hv hpow, Nat.lt_of_lt_of_le hw hpow⟩
  cases p with
  | verbatim c => cases hp
  | register bank digits =>
    exact BitVec.eq_of_toInt_eq (Text.decimal_injective (List.cons.inj h).2)
  | number digits => exact BitVec.eq_of_toInt_eq (Text.decimal_injective h)
  | signedNumber digits =>
    have hint := BitVec.eq_of_toInt_eq (Text.decimal_injective h)
    exact signExtendLow_inj (of_decide_eq_true hp) hv hw (congrArg _ hint)
  | target =>
    obtain ⟨hv, hw⟩ := hwiden (of_decide_eq_true hp)
    exact regionTarget_inj hv hw (Text.hexWord_injective h)
  | label =>
    simp only [render] at h
    split at h
    · next hformat =>
      have hnarrow : width ≤ 16 := by simpa [showsAll, hformat] using hp
      obtain ⟨hv, hw⟩ := hwiden hnarrow
      have hshift := (BitVec.add_right_inj _).1 (Text.hexWord_injective h)
      exact signExtendLow_inj (by decide) hv hw (setWidth_eq_of_shiftLeft_eq (by decide) hshift)
    · exact Text.hexShort_injective h

/-! ## Rows of pieces -/

/-- A row that does not begin with a character of an operand. -/
def setsOff : List Piece → Bool
  | [] => true
  | verbatim c :: _ => !isOperandChar c
  | _ => false

/-- Every field has an operand that shows it whole and is set off from what follows, and there are
no more operands than fields. -/
def legible (format : Format) : List Nat → List Piece → Bool
  | widths, [] => widths.isEmpty
  | [], p :: ps => !p.isOperand && legible format [] ps
  | width :: widths, p :: ps =>
    if p.isOperand then p.showsAll format width && setsOff ps && legible format widths ps
    else legible format (width :: widths) ps

/-- One value for each field, and none too large for it. -/
def Fits (widths : List Nat) (values : List Word) : Prop :=
  List.Forall₂ (fun width v => v.toNat < 2 ^ width) widths values

variable {widths : List Nat} {values : List Word} {p : Piece} {ps : List Piece}

theorem separated_renderAll (h : setsOff ps = true) (operands : List (Word × Nat)) :
    Separated (renderAll format pc operands ps) := by
  match ps with
  | [] => cases operands <;> rfl
  | verbatim c :: ps =>
    have hc : isOperandChar c = false := by simpa [setsOff] using h
    have hfront : ∃ rest, renderAll format pc operands (verbatim c :: ps) = c :: rest := by
      cases operands <;> exact ⟨_, rfl⟩
    obtain ⟨rest, hfront⟩ := hfront
    rw [Separated, hfront, List.takeWhile_cons, hc]
    rfl

theorem legible_of_verbatim (hp : p.isOperand = false)
    (h : legible format widths (p :: ps) = true) : legible format widths ps = true := by
  cases widths with
  | nil => simpa [legible, hp] using h
  | cons width widths => simpa [legible, hp] using h

theorem legible_of_operand (hp : p.isOperand = true)
    (h : legible format widths (p :: ps) = true) :
    ∃ width widths', widths = width :: widths' ∧ p.showsAll format width = true ∧
      setsOff ps = true ∧ legible format widths' ps = true := by
  cases widths with
  | nil => simp [legible, hp] at h
  | cons width widths =>
    simp only [legible, hp, if_true, Bool.and_eq_true] at h
    exact ⟨width, widths, rfl, h.1.1, h.1.2, h.2⟩

theorem renderAll_verbatim (hp : p.isOperand = false) (operands : List (Word × Nat)) :
    renderAll format pc operands (p :: ps) = p.lexeme ++ renderAll format pc operands ps := by
  cases operands with
  | nil => rfl
  | cons operand operands => simp [renderAll, hp]

theorem renderAll_operand (hp : p.isOperand = true) (v : Word) :
    renderAll format pc ((v :: values).zip (width :: widths)) (p :: ps) =
      p.render format pc v width ++ renderAll format pc (values.zip widths) ps := by
  simp [renderAll, hp]

/-- A legible row gives different texts for different operands. -/
theorem renderAll_injective (h : legible format widths ps = true) {values' : List Word}
    (hv : Fits widths values) (hv' : Fits widths values')
    (heq : renderAll format pc (values.zip widths) ps =
      renderAll format pc (values'.zip widths) ps) :
    values = values' := by
  induction ps generalizing widths values values' with
  | nil =>
    have hnil : widths = [] := by
      cases widths with
      | nil => rfl
      | cons width widths => cases h
    subst hnil
    cases hv
    cases hv'
    rfl
  | cons p ps ih =>
    cases hp : p.isOperand with
    | false =>
      rw [renderAll_verbatim hp, renderAll_verbatim hp] at heq
      exact ih (legible_of_verbatim hp h) hv hv' (List.append_cancel_left heq)
    | true =>
      obtain ⟨width, widths, rfl, hshows, hoff, hrest⟩ := legible_of_operand hp h
      obtain ⟨v, values, hlt, hfits, rfl⟩ := List.forall₂_cons_left_iff.1 hv
      obtain ⟨v', values', hlt', hfits', rfl⟩ := List.forall₂_cons_left_iff.1 hv'
      rw [renderAll_operand hp, renderAll_operand hp] at heq
      obtain ⟨hone, htail⟩ := append_inj_of_separated
        (fun c => isOperandChar_of_mem_render hshows)
        (fun c => isOperandChar_of_mem_render hshows)
        (separated_renderAll hoff _) (separated_renderAll hoff _) heq
      rw [render_injective hshows hlt hlt' hone, ih hrest hfits hfits' htail]

/-! ## Rows that are never written alike -/

def isDecimal : Piece → Bool
  | number _ | signedNumber _ => true
  | _ => false

def isHexadecimal : Piece → Bool
  | target | label => true
  | _ => false

/-- Whether a row that begins with one piece is never written like a row that begins with the
other. -/
def excludes : Piece → Piece → Bool
  | verbatim c, verbatim d => c != d
  | verbatim c, q => q.isDecimal && !isDecimalChar c
  | p, q => p.isHexadecimal && q.isDecimal

/-- Where two rows differ first, the piece of the one excludes that of the other. -/
def apart : List Piece → List Piece → Bool
  | p :: ps, q :: qs => if p = q then apart ps qs else p.excludes q
  | _, _ => false

theorem isOperand_of_isDecimal (hp : p.isDecimal = true) : p.isOperand = true := by
  cases p with
  | number digits | signedNumber digits => rfl
  | _ => cases hp

theorem isOperand_of_isHexadecimal (hp : p.isHexadecimal = true) : p.isOperand = true := by
  cases p with
  | target | label => rfl
  | _ => cases hp

theorem render_of_isDecimal (format : Format) (pc v : Word) (width : Nat)
    (hp : p.isDecimal = true) : ∃ z, p.render format pc v width = Text.decimal z := by
  cases p with
  | number digits | signedNumber digits => exact ⟨_, rfl⟩
  | _ => cases hp

theorem x_mem_render (format : Format) (pc v : Word) (width : Nat)
    (hp : p.isHexadecimal = true) : 'x' ∈ p.render format pc v width := by
  cases p with
  | target => exact x_mem_hexWord _
  | label =>
    simp only [render]
    split
    · exact x_mem_hexWord _
    · exact x_mem_hexShort _
  | _ => cases hp

variable {format' : Format} {widths' : List Nat} {values' : List Word} {q : Piece} {qs : List Piece}

/-- A character that no number has is not what a number begins with. -/
theorem renderAll_ne_of_verbatim {c : Char} (hq : q.isDecimal = true)
    (hc : isDecimalChar c = false) (h' : legible format' widths' (q :: qs) = true)
    (hw : Fits widths' values') (operands : List (Word × Nat)) :
    renderAll format pc operands (verbatim c :: ps) ≠
      renderAll format' pc (values'.zip widths') (q :: qs) := by
  intro heq
  have hoperand := isOperand_of_isDecimal hq
  obtain ⟨width, widths, rfl, -⟩ := legible_of_operand hoperand h'
  obtain ⟨v, values, -, -, rfl⟩ := List.forall₂_cons_left_iff.1 hw
  obtain ⟨z, hz⟩ := render_of_isDecimal format' pc v width hq
  rw [renderAll_verbatim rfl, renderAll_operand hoperand, hz] at heq
  cases hdigits : Text.decimal z with
  | nil => exact decimal_ne_nil z hdigits
  | cons d rest =>
    rw [hdigits] at heq
    have hmem : c ∈ Text.decimal z := by
      rw [hdigits, (List.cons.inj heq).1]
      exact List.mem_cons_self
    rw [isDecimalChar_of_mem_decimal hmem] at hc
    cases hc

/-- A number in hexadecimal has a letter that a number in decimal has not. -/
theorem renderAll_ne_of_isHexadecimal (hp : p.isHexadecimal = true) (hq : q.isDecimal = true)
    (h : legible format widths (p :: ps) = true) (h' : legible format' widths' (q :: qs) = true)
    (hv : Fits widths values) (hw : Fits widths' values') :
    renderAll format pc (values.zip widths) (p :: ps) ≠
      renderAll format' pc (values'.zip widths') (q :: qs) := by
  intro heq
  have hoperand := isOperand_of_isHexadecimal hp
  have hoperand' := isOperand_of_isDecimal hq
  obtain ⟨n, widths, rfl, hshows, hoff, -⟩ := legible_of_operand hoperand h
  obtain ⟨m, widths', rfl, hshows', hoff', -⟩ := legible_of_operand hoperand' h'
  obtain ⟨v, values, -, -, rfl⟩ := List.forall₂_cons_left_iff.1 hv
  obtain ⟨w, values', -, -, rfl⟩ := List.forall₂_cons_left_iff.1 hw
  rw [renderAll_operand hoperand, renderAll_operand hoperand'] at heq
  obtain ⟨hone, -⟩ := append_inj_of_separated
    (fun c => isOperandChar_of_mem_render hshows)
    (fun c => isOperandChar_of_mem_render hshows')
    (separated_renderAll hoff _) (separated_renderAll hoff' _) heq
  obtain ⟨z, hz⟩ := render_of_isDecimal format' pc w m hq
  have hx := x_mem_render format pc v n hp
  rw [hone, hz] at hx
  exact absurd (isDecimalChar_of_mem_decimal hx) (by decide)

theorem renderAll_ne_of_excludes (hpq : p.excludes q = true)
    (h : legible format widths (p :: ps) = true) (h' : legible format' widths' (q :: qs) = true)
    (hv : Fits widths values) (hw : Fits widths' values') :
    renderAll format pc (values.zip widths) (p :: ps) ≠
      renderAll format' pc (values'.zip widths') (q :: qs) := by
  unfold excludes at hpq
  split at hpq
  · intro heq
    rw [renderAll_verbatim rfl, renderAll_verbatim rfl] at heq
    exact absurd (List.cons.inj heq).1 (bne_iff_ne.1 hpq)
  · obtain ⟨hq, hc⟩ := Bool.and_eq_true_iff.1 hpq
    exact renderAll_ne_of_verbatim hq (by simpa using hc) h' hw _
  · obtain ⟨hp, hq⟩ := Bool.and_eq_true_iff.1 hpq
    exact renderAll_ne_of_isHexadecimal hp hq h h' hv hw

/-- Rows that are apart are not written alike, whatever their operands are. -/
theorem renderAll_ne_of_apart (hpq : apart ps qs = true) (h : legible format widths ps = true)
    (h' : legible format' widths' qs = true) (hv : Fits widths values)
    (hw : Fits widths' values') :
    renderAll format pc (values.zip widths) ps ≠
      renderAll format' pc (values'.zip widths') qs := by
  induction ps generalizing qs widths widths' values values' with
  | nil => cases hpq
  | cons p ps ih =>
    cases qs with
    | nil => cases hpq
    | cons q qs =>
      rw [apart] at hpq
      split at hpq
      · next hsame =>
        subst hsame
        intro heq
        cases hp : p.isOperand with
        | false =>
          rw [renderAll_verbatim hp, renderAll_verbatim hp] at heq
          exact ih hpq (legible_of_verbatim hp h) (legible_of_verbatim hp h') hv hw
            (List.append_cancel_left heq)
        | true =>
          -- the operands may differ in value, but what follows them is compared at one place
          obtain ⟨n, widths, rfl, hshows, hoff, hrest⟩ := legible_of_operand hp h
          obtain ⟨m, widths', rfl, hshows', hoff', hrest'⟩ := legible_of_operand hp h'
          obtain ⟨v, values, -, hfits, rfl⟩ := List.forall₂_cons_left_iff.1 hv
          obtain ⟨w, values', -, hfits', rfl⟩ := List.forall₂_cons_left_iff.1 hw
          rw [renderAll_operand hp, renderAll_operand hp] at heq
          obtain ⟨-, htail⟩ := append_inj_of_separated
            (fun c => isOperandChar_of_mem_render hshows)
            (fun c => isOperandChar_of_mem_render hshows')
            (separated_renderAll hoff _) (separated_renderAll hoff' _) heq
          exact ih hpq hrest hrest' hfits hfits' htail
      · exact renderAll_ne_of_excludes hpq h h' hv hw

end Piece

end LegMachine
