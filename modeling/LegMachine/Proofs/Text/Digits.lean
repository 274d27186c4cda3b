import LegMachine.Text.Number
import Mathlib.Logic.Function.Basic
import Mathlib.Algebra.Group.Int.Defs
import Mathlib.Algebra.Group.Nat.Defs

/-!
# Numbers that are written and read back

Digits in a base of at most 16 read back as the number that they are written for
(`readDigits_toDigits`), zeros in front of them do not matter (`readDigits_leftpad`), and so a word
is read back from its hexadecimal forms (`readWord_hexWord`, `readWord_hexShort`). No two numbers
are written alike (`hexWord_injective`, `hexShort_injective`, `decimal_injective`).
-/

namespace LegMachine.Text

theorem digitValue?_digitChar : ∀ b ≤ 16, ∀ d < b, digitValue? b d.digitChar = some d := by
  decide

theorem isAlphanum_digitChar : ∀ d < 16, d.digitChar.isAlphanum = true := by
  decide

theorem mem_toDigits {b n : Nat} (hb : 1 < b) {c : Char} (hc : c ∈ Nat.toDigits b n) :
    ∃ d < b, c = d.digitChar := by
  induction n using Nat.strongRecOn with
  | ind n ih =>
    rw [Nat.toDigits_eq_if hb] at hc
    split at hc
    · next h => exact ⟨n, h, List.mem_singleton.1 hc⟩
    · next h =>
      rcases List.mem_append.1 hc with hc | hc
      · exact ih (n / b) (Nat.div_lt_self (by omega) hb) hc
      · exact ⟨n % b, Nat.mod_lt n (by omega), List.mem_singleton.1 hc⟩

/-- A digit is a letter or a digit; no sign is among them. -/
theorem isAlphanum_of_mem_toDigits {b n : Nat} (hb : 1 < b) (hb' : b ≤ 16) {c : Char}
    (hc : c ∈ Nat.toDigits b n) : c.isAlphanum = true := by
  obtain ⟨d, hd, rfl⟩ := mem_toDigits hb hc
  exact isAlphanum_digitChar d (by omega)

/-! ## Reading digits -/

theorem readDigits_append (b limit v : Nat) (xs ys : List Char) :
    readDigits b limit v (xs ++ ys) =
      (readDigits b limit v xs).bind fun v => readDigits b limit v ys := by
  induction xs generalizing v with
  | nil => rfl
  | cons c rest ih =>
    rw [List.cons_append, readDigits, readDigits]
    cases digitValue? b c with
    | none => rfl
    | some d =>
      show (if _ then _ else _) = Except.bind (if _ then _ else _) _
      split
      · exact ih _
      · rfl

theorem readDigits_singleton {b limit v d : Nat} (hb : b ≤ 16) (hd : d < b)
    (hv : b * v + d ≤ limit) : readDigits b limit v [d.digitChar] = .ok (b * v + d) := by
  simp only [readDigits, digitValue?_digitChar b hb d hd, if_pos hv]

theorem readDigits_toDigits {b limit n : Nat} (hb : 1 < b) (hb' : b ≤ 16) (hn : n ≤ limit) :
    readDigits b limit 0 (Nat.toDigits b n) = .ok n := by
  induction n using Nat.strongRecOn with
  | ind n ih =>
    rw [Nat.toDigits_eq_if hb]
    split
    · next h =>
      have hzero : b * 0 + n = n := by omega
      rw [readDigits_singleton hb' h (by omega), hzero]
    · next h =>
      have hlt : n / b < n := Nat.div_lt_self (by omega) hb
      have hdiv : b * (n / b) + n % b = n := Nat.div_add_mod n b
      rw [readDigits_append, ih (n / b) hlt (by omega)]
      show readDigits b limit (n / b) [(n % b).digitChar] = .ok n
      rw [readDigits_singleton hb' (Nat.mod_lt n (by omega)) (by omega), hdiv]

theorem readDigits_leftpad {b limit : Nat} (hb : 1 < b) (hb' : b ≤ 16) (k : Nat)
    (digits : List Char) :
    readDigits b limit 0 (digits.leftpad k '0') = readDigits b limit 0 digits := by
  unfold List.leftpad
  induction k - digits.length with
  | zero => rfl
  | succ k ih =>
    have hzero : digitValue? b '0' = some 0 := digitValue?_digitChar b hb' 0 (by omega)
    rw [List.replicate_succ, List.cons_append, readDigits, hzero]
    simp only [Nat.mul_zero, Nat.add_zero]
    rw [if_pos (Nat.zero_le limit), ih]

theorem toDigits_injective {b : Nat} (hb : 1 < b) (hb' : b ≤ 16) :
    Function.Injective (Nat.toDigits b) := by
  intro m n h
  have hm : readDigits b (max m n) 0 (Nat.toDigits b m) = .ok m :=
    readDigits_toDigits hb hb' (by omega)
  have hn : readDigits b (max m n) 0 (Nat.toDigits b n) = .ok n :=
    readDigits_toDigits hb hb' (by omega)
  rw [h, hn] at hm
  exact (Except.ok.inj hm).symm

/-! ## Words and integers -/

/-- Where no sign stands in front, nothing but digits is read. -/
theorem readUnsigned_of_isAlphanum {b limit : Nat} {text : List Char} (hne : text ≠ [])
    (htext : ∀ c ∈ text, c.isAlphanum = true) :
    readUnsigned b limit text = readDigits b limit 0 text := by
  have hplus : ∀ rest, text ≠ '+' :: rest := by
    rintro rest rfl
    exact absurd (htext '+' List.mem_cons_self) (by decide)
  unfold readUnsigned
  split
  · exact absurd rfl hne
  · exact absurd rfl (hplus [])
  · exact absurd rfl (hplus _)
  · rfl

theorem readUnsigned_toDigits {b limit n : Nat} (hb : 1 < b) (hb' : b ≤ 16) (hn : n ≤ limit) :
    readUnsigned b limit (Nat.toDigits b n) = .ok n := by
  rw [readUnsigned_of_isAlphanum Nat.toDigits_ne_nil fun c hc =>
    isAlphanum_of_mem_toDigits hb hb' hc, readDigits_toDigits hb hb' hn]

theorem isAlphanum_of_mem_leftpad {b n : Nat} (hb : 1 < b) (hb' : b ≤ 16) (k : Nat) :
    ∀ c ∈ (Nat.toDigits b n).leftpad k '0', c.isAlphanum = true := by
  intro c hc
  rcases List.mem_append.1 hc with hc | hc
  · rw [List.eq_of_mem_replicate hc]
    decide
  · exact isAlphanum_of_mem_toDigits hb hb' hc

theorem leftpad_toDigits_ne_nil (b n k : Nat) : (Nat.toDigits b n).leftpad k '0' ≠ [] :=
  List.append_ne_nil_of_right_ne_nil _ Nat.toDigits_ne_nil

/-- Hexadecimal digits behind any number of zeros read back as the word. -/
theorem readUnsigned_leftpad (w : Word) (k : Nat) :
    readUnsigned 16 0xFFFFFFFF ((Nat.toDigits 16 w.toNat).leftpad k '0') = .ok w.toNat := by
  have hw : w.toNat ≤ 0xFFFFFFFF := Nat.le_sub_one_of_lt w.isLt
  rw [readUnsigned_of_isAlphanum (leftpad_toDigits_ne_nil 16 _ k)
      (isAlphanum_of_mem_leftpad (by decide) (by decide) k),
    readDigits_leftpad (by decide) (by decide), readDigits_toDigits (by decide) (by decide) hw]

theorem readWord_hexWord (w : Word) : readWord (hexWord w) = .ok w := by
  show (readUnsigned 16 0xFFFFFFFF ((Nat.toDigits 16 w.toNat).leftpad 8 '0')).map _ = _
  rw [readUnsigned_leftpad, Except.map, BitVec.ofNat_toNat, BitVec.setWidth_eq]

theorem readWord_hexShort (w : Word) : readWord (hexShort w) = .ok w := by
  have hread := readUnsigned_leftpad w 0
  rw [List.leftpad, Nat.zero_sub, List.replicate_zero, List.nil_append] at hread
  show (readUnsigned 16 0xFFFFFFFF (Nat.toDigits 16 w.toNat)).map _ = _
  rw [hread, Except.map, BitVec.ofNat_toNat, BitVec.setWidth_eq]

/-- What is read back is not written in one way for two words. -/
theorem injective_of_readWord {write : Word → List Char} (h : ∀ w, readWord (write w) = .ok w) :
    Function.Injective write := by
  intro v w hvw
  have hv := h v
  rw [hvw, h w] at hv
  exact (Except.ok.inj hv).symm

theorem hexWord_injective : Function.Injective hexWord :=
  injective_of_readWord readWord_hexWord

theorem hexShort_injective : Function.Injective hexShort :=
  injective_of_readWord readWord_hexShort

/-- Digits do not begin with the sign of a negative number. -/
theorem toDigits_ne_minus (n : Nat) (rest : List Char) : Nat.toDigits 10 n ≠ '-' :: rest := by
  intro h
  have hminus : '-' ∈ Nat.toDigits 10 n := h ▸ List.mem_cons_self
  exact absurd (isAlphanum_of_mem_toDigits (by decide) (by decide) hminus) (by decide)

theorem decimal_injective : Function.Injective decimal := by
  have hdigits := toDigits_injective (b := 10) (by decide) (by decide)
  intro x y h
  unfold decimal at h
  split at h <;> split at h
  · have habs := hdigits (List.cons.inj h).2
    omega
  · exact absurd h.symm (toDigits_ne_minus _ _)
  · exact absurd h (toDigits_ne_minus _ _)
  · have habs := hdigits h
    omega

end LegMachine.Text
