import LegMachine.Ieee.Arithmetic
import Mathlib.Order.Monotone.Basic

/-!
# The order of bit patterns

A pattern is a sign bit in front of a magnitude. The magnitudes of numbers lie as the numbers do
(`Format.units_strictMono`), behind them stands the infinity, and behind that what has no value
(`Datum.ofBits_eq`). So patterns compare as integers that are read in sign and magnitude
(`relates_iff`); a zero equals the other one. What an operation results in is a pattern of the
format (`Operation.apply_lt`).
-/

namespace LegMachine.Ieee

namespace Format

variable (f : Format)

/-- All bits of the exponent are set and some of the fraction, which is no value. -/
def IsNaN (pattern : Nat) : Prop :=
  pattern / 2 ^ f.fractionBits % 2 ^ f.exponentBits = 2 ^ f.exponentBits - 1 ∧
    pattern % 2 ^ f.fractionBits ≠ 0

instance (pattern : Nat) : Decidable (f.IsNaN pattern) :=
  inferInstanceAs (Decidable (_ ∧ _))

def isNegative (pattern : Nat) : Bool :=
  pattern / f.signBit % 2 == 1

def magnitudeBits (pattern : Nat) : Nat :=
  pattern % f.signBit

/-- A pattern read as an integer in sign and magnitude. -/
def signMagnitude (pattern : Nat) : Int :=
  if f.isNegative pattern then -f.magnitudeBits pattern else f.magnitudeBits pattern

/-- The relation holds between two patterns, by sign and magnitude. -/
def Relates (a b : Nat) : Relation → Prop
  | .unordered => f.IsNaN a ∨ f.IsNaN b
  | .equal => ¬ (f.IsNaN a ∨ f.IsNaN b) ∧ f.signMagnitude a = f.signMagnitude b
  | .less => ¬ (f.IsNaN a ∨ f.IsNaN b) ∧ f.signMagnitude a < f.signMagnitude b
  | .greater => ¬ (f.IsNaN a ∨ f.IsNaN b) ∧ f.signMagnitude b < f.signMagnitude a

/-! ## Magnitudes -/

/-- The units of the number that has a magnitude. -/
def units (magnitude : Nat) : Nat :=
  if magnitude / 2 ^ f.fractionBits = 0 then magnitude % 2 ^ f.fractionBits
  else (2 ^ f.fractionBits + magnitude % 2 ^ f.fractionBits) *
    2 ^ (magnitude / 2 ^ f.fractionBits - 1)

theorem units_zero : f.units 0 = 0 := by
  simp [units]

/-- Numbers with one exponent lie below those with a greater one. -/
theorem units_lt_pow (x : Nat) :
    f.units x < 2 ^ f.fractionBits * 2 ^ (x / 2 ^ f.fractionBits) := by
  have hlt : x % 2 ^ f.fractionBits < 2 ^ f.fractionBits := Nat.mod_lt _ (Nat.two_pow_pos _)
  unfold units
  cases x / 2 ^ f.fractionBits with
  | zero => simpa using hlt
  | succ e =>
    rw [if_neg (Nat.succ_ne_zero e), Nat.add_sub_cancel, Nat.pow_succ', ← Nat.mul_assoc]
    exact Nat.mul_lt_mul_of_pos_right (by omega) (Nat.two_pow_pos e)

theorem pow_le_units {x e : Nat} (h : e < x / 2 ^ f.fractionBits) :
    2 ^ f.fractionBits * 2 ^ e ≤ f.units x := by
  unfold units
  rw [if_neg (by omega)]
  exact Nat.mul_le_mul (Nat.le_add_right _ _) (Nat.pow_le_pow_right (by decide) (by omega))

theorem units_strictMono : StrictMono f.units := by
  intro x y hxy
  obtain hexponent | hexponent := Nat.lt_or_eq_of_le (Nat.div_le_div_right (c := 2 ^ f.fractionBits)
    (Nat.le_of_lt hxy))
  · exact Nat.lt_of_lt_of_le (f.units_lt_pow x) (f.pow_le_units hexponent)
  · have hfraction : x % 2 ^ f.fractionBits < y % 2 ^ f.fractionBits := by
      have hx := Nat.div_add_mod x (2 ^ f.fractionBits)
      have hy := Nat.div_add_mod y (2 ^ f.fractionBits)
      rw [hexponent] at hx
      omega
    unfold units
    rw [hexponent]
    split
    · exact hfraction
    · exact Nat.mul_lt_mul_of_pos_right (Nat.add_lt_add_left hfraction _) (Nat.two_pow_pos _)

theorem magnitudeBits_div (pattern : Nat) :
    f.magnitudeBits pattern / 2 ^ f.fractionBits =
      pattern / 2 ^ f.fractionBits % 2 ^ f.exponentBits := by
  rw [magnitudeBits, signBit, Nat.pow_add, Nat.mul_comm, Nat.mod_mul_right_div_self]

theorem magnitudeBits_mod (pattern : Nat) :
    f.magnitudeBits pattern % 2 ^ f.fractionBits = pattern % 2 ^ f.fractionBits := by
  rw [magnitudeBits, signBit, Nat.pow_add, Nat.mod_mod_of_dvd _ (Nat.dvd_mul_left _ _)]

theorem infinity_le_iff (pattern : Nat) : f.infinity ≤ f.magnitudeBits pattern ↔
    pattern / 2 ^ f.fractionBits % 2 ^ f.exponentBits = 2 ^ f.exponentBits - 1 := by
  have hlt : pattern / 2 ^ f.fractionBits % 2 ^ f.exponentBits < 2 ^ f.exponentBits :=
    Nat.mod_lt _ (Nat.two_pow_pos _)
  rw [infinity, ← Nat.le_div_iff_mul_le (Nat.two_pow_pos _), magnitudeBits_div]
  omega

/-- With all bits of the exponent set, the fraction is what lies behind the infinity. -/
theorem magnitudeBits_of_infinity_le {pattern : Nat} (h : f.infinity ≤ f.magnitudeBits pattern) :
    f.magnitudeBits pattern = f.infinity + pattern % 2 ^ f.fractionBits := by
  have hsplit := Nat.div_add_mod' (f.magnitudeBits pattern) (2 ^ f.fractionBits)
  rw [magnitudeBits_div, magnitudeBits_mod, (f.infinity_le_iff pattern).1 h] at hsplit
  exact hsplit.symm

theorem isNaN_iff (pattern : Nat) : f.IsNaN pattern ↔ f.infinity < f.magnitudeBits pattern := by
  rw [IsNaN, ← infinity_le_iff]
  constructor
  · rintro ⟨hle, hfraction⟩
    have hsum := f.magnitudeBits_of_infinity_le hle
    omega
  · intro hlt
    have hsum := f.magnitudeBits_of_infinity_le (Nat.le_of_lt hlt)
    exact ⟨Nat.le_of_lt hlt, by omega⟩

end Format

/-! ## Data -/

/-- What a pattern stands for is told from its sign bit and the place of its magnitude. -/
theorem Datum.ofBits_eq (f : Format) (pattern : Nat) :
    Datum.ofBits f pattern =
      if f.IsNaN pattern then nan
      else if f.magnitudeBits pattern = f.infinity then infinite (f.isNegative pattern)
      else finite (f.isNegative pattern) (f.units (f.magnitudeBits pattern)) := by
  have hle := f.infinity_le_iff pattern
  unfold ofBits Format.units
  dsimp only
  rw [f.magnitudeBits_div, f.magnitudeBits_mod]
  by_cases hexponent : pattern / 2 ^ f.fractionBits % 2 ^ f.exponentBits = 2 ^ f.exponentBits - 1
  · have hsum := f.magnitudeBits_of_infinity_le (hle.2 hexponent)
    rw [if_pos hexponent]
    by_cases hfraction : pattern % 2 ^ f.fractionBits = 0
    · rw [if_pos hfraction, if_neg fun h => h.2 hfraction, if_pos (by omega)]
      rfl
    · rw [if_neg hfraction, if_pos ⟨hexponent, hfraction⟩]
  · have hnan : ¬ f.IsNaN pattern := fun h => hexponent h.1
    have hne : f.magnitudeBits pattern ≠ f.infinity := fun h =>
      hexponent (hle.1 (Nat.le_of_eq h.symm))
    rw [if_neg hexponent, if_neg hnan, if_neg hne]
    split <;> rfl

theorem Datum.isNaN_ofBits (f : Format) (pattern : Nat) :
    (Datum.ofBits f pattern).isNaN = decide (f.IsNaN pattern) := by
  rw [ofBits_eq]
  by_cases h : f.IsNaN pattern
  · rw [if_pos h, decide_eq_true h]
    rfl
  · rw [if_neg h, decide_eq_false h]
    split <;> rfl

/-! ## Signs -/

namespace Datum

@[simp] theorem signedUnits_true (n : Nat) : signedUnits true n = -n := rfl

@[simp] theorem signedUnits_false (n : Nat) : signedUnits false n = n := rfl

theorem natAbs_signedUnits (s : Bool) (n : Nat) : (signedUnits s n).natAbs = n := by
  cases s <;> simp

end Datum

theorem Format.signMagnitude_eq (f : Format) (pattern : Nat) : f.signMagnitude pattern =
    Datum.signedUnits (f.isNegative pattern) (f.magnitudeBits pattern) :=
  rfl

namespace Relation

/-- The relation of the operands the other way round. -/
def swap : Relation → Relation
  | less => greater
  | equal => equal
  | greater => less
  | unordered => unordered

theorem ofInts_of_lt {a b : Int} (h : a < b) : ofInts a b = less :=
  if_pos h

theorem ofInts_of_gt {a b : Int} (h : b < a) : ofInts a b = greater := by
  rw [ofInts, if_neg (by omega), if_neg (by omega)]

theorem ofInts_congr {a b c d : Int} (hlt : a < b ↔ c < d) (heq : a = b ↔ c = d) :
    ofInts a b = ofInts c d := by
  unfold ofInts
  rw [if_congr hlt rfl (if_congr heq rfl rfl)]

/-- What grows with the magnitude is in the order of sign and magnitude. -/
theorem ofInts_signedUnits {u : Nat → Nat} (hu : StrictMono u) (hzero : u 0 = 0) (s t : Bool)
    (m n : Nat) :
    ofInts (Datum.signedUnits s (u m)) (Datum.signedUnits t (u n)) =
      ofInts (Datum.signedUnits s m) (Datum.signedUnits t n) := by
  have hlt : u m < u n ↔ m < n := hu.lt_iff_lt
  have hgt : u n < u m ↔ n < m := hu.lt_iff_lt
  have hm : u 0 < u m ↔ 0 < m := hu.lt_iff_lt
  have hn : u 0 < u n ↔ 0 < n := hu.lt_iff_lt
  rw [hzero] at hm hn
  cases s <;> cases t <;>
    simp only [Datum.signedUnits_true, Datum.signedUnits_false] <;>
    apply ofInts_congr <;> omega

end Relation

/-! ## Comparisons -/

section

variable {f : Format} (hf : 0 < f.exponentBits) (a b : Nat)
include hf

theorem Format.infinity_pos : 0 < f.infinity := by
  have hpow : 1 < 2 ^ f.exponentBits := Nat.one_lt_two_pow (by omega)
  exact Nat.mul_pos (by omega) (Nat.two_pow_pos _)

/-- Patterns compare as sign and magnitude do, unless one of them has no value. -/
theorem compare_eq : compare f a b =
    if f.IsNaN a ∨ f.IsNaN b then .unordered
    else .ofInts (f.signMagnitude a) (f.signMagnitude b) := by
  unfold compare
  rw [Datum.ofBits_eq, Datum.ofBits_eq]
  by_cases ha : f.IsNaN a
  · have hnan : f.IsNaN a ∨ f.IsNaN b := .inl ha
    rw [if_pos ha, if_pos hnan]
    rfl
  by_cases hb : f.IsNaN b
  · have hnan : f.IsNaN a ∨ f.IsNaN b := .inr hb
    rw [if_neg ha, if_pos hb, if_pos hnan]
    split <;> rfl
  have hnan : ¬ (f.IsNaN a ∨ f.IsNaN b) := not_or_intro ha hb
  rw [if_neg ha, if_neg hb, if_neg hnan, f.signMagnitude_eq, f.signMagnitude_eq]
  have hale : f.magnitudeBits a ≤ f.infinity := Nat.not_lt.1 (mt (f.isNaN_iff a).2 ha)
  have hble : f.magnitudeBits b ≤ f.infinity := Nat.not_lt.1 (mt (f.isNaN_iff b).2 hb)
  have hpos := Format.infinity_pos hf
  have haabs := Datum.natAbs_signedUnits (f.isNegative a) (f.magnitudeBits a)
  have hbabs := Datum.natAbs_signedUnits (f.isNegative b) (f.magnitudeBits b)
  generalize f.isNegative a = s, f.isNegative b = t at haabs hbabs ⊢
  -- no magnitude lies beyond the infinity, so the sign of an infinity decides
  by_cases hainf : f.magnitudeBits a = f.infinity
  · by_cases hbinf : f.magnitudeBits b = f.infinity
    · rw [if_pos hainf, if_pos hbinf, hainf, hbinf]
      show Relation.ofInts _ _ = _
      cases s <;> cases t <;>
        simp only [Datum.signedUnits_true, Datum.signedUnits_false] <;>
        apply Relation.ofInts_congr <;> omega
    · rw [if_pos hainf, if_neg hbinf, hainf]
      cases s with
      | true =>
        refine (Relation.ofInts_of_lt ?_).symm
        rw [Datum.signedUnits_true]
        omega
      | false =>
        refine (Relation.ofInts_of_gt ?_).symm
        rw [Datum.signedUnits_false]
        omega
  · by_cases hbinf : f.magnitudeBits b = f.infinity
    · rw [if_neg hainf, if_pos hbinf, hbinf]
      cases t with
      | true =>
        refine (Relation.ofInts_of_gt ?_).symm
        rw [Datum.signedUnits_true]
        omega
      | false =>
        refine (Relation.ofInts_of_lt ?_).symm
        rw [Datum.signedUnits_false]
        omega
    · rw [if_neg hainf, if_neg hbinf]
      exact Relation.ofInts_signedUnits f.units_strictMono f.units_zero s t _ _

theorem relates_iff (r : Relation) : f.Relates a b r ↔ compare f a b = r := by
  rw [compare_eq hf]
  by_cases h : f.IsNaN a ∨ f.IsNaN b
  · rw [if_pos h]
    cases r <;> simp [Format.Relates, h]
  · rw [if_neg h]
    unfold Relation.ofInts
    cases r <;> simp only [Format.Relates, h, not_false_eq_true, true_and, false_iff] <;>
      split_ifs <;> simp <;> omega

theorem compare_swap : compare f b a = (compare f a b).swap := by
  have h := (relates_iff hf a b _).2 rfl
  rw [← relates_iff hf]
  generalize compare f a b = r at h
  cases r with
  | unordered => exact h.symm
  | equal => exact ⟨mt Or.symm h.1, h.2.symm⟩
  | less | greater => exact ⟨mt Or.symm h.1, h.2⟩

end

/-! ## Results -/

theorem Format.infinity_lt (f : Format) : f.infinity < f.signBit := by
  have hpos := Nat.two_pow_pos f.exponentBits
  rw [infinity, signBit, Nat.pow_add]
  exact Nat.mul_lt_mul_of_pos_right (by omega) (Nat.two_pow_pos _)

theorem magnitude_lt (f : Format) (n d : Nat) : magnitude f n d < f.signBit :=
  Nat.lt_of_le_of_lt (Nat.min_le_right _ _) f.infinity_lt

theorem signed_lt {f : Format} {pattern : Nat} (h : pattern < f.signBit) (negative : Bool) :
    signed f negative pattern < 2 * f.signBit := by
  unfold signed
  split <;> omega

section

variable {f : Format} (hf : 0 < f.fractionBits)
include hf

theorem Format.canonicalNaN_lt : f.canonicalNaN < 2 * f.signBit := by
  have hlt := f.infinity_lt
  have hle : 2 ^ (f.fractionBits - 1) ≤ f.signBit := Nat.pow_le_pow_right (by decide) (by omega)
  unfold canonicalNaN
  omega

theorem add_lt (a b : Datum) : add f a b < 2 * f.signBit := by
  fun_cases add f a b
  case case1 | case2 | case4 => exact Format.canonicalNaN_lt hf
  case case3 | case5 | case6 => exact signed_lt f.infinity_lt _
  case case7 => exact signed_lt (Nat.two_pow_pos _) _
  case case8 => exact signed_lt (magnitude_lt f _ _) _

theorem mul_lt (a b : Datum) : mul f a b < 2 * f.signBit := by
  fun_cases mul f a b
  case case1 | case2 | case4 | case6 => exact Format.canonicalNaN_lt hf
  case case3 | case5 | case7 => exact signed_lt f.infinity_lt _
  case case8 => exact signed_lt (magnitude_lt f _ _) _

theorem div_lt (a b : Datum) : div f a b < 2 * f.signBit := by
  fun_cases div f a b
  case case1 | case2 | case3 | case6 => exact Format.canonicalNaN_lt hf
  case case4 | case7 => exact signed_lt f.infinity_lt _
  case case5 => exact signed_lt (Nat.two_pow_pos _) _
  case case8 => exact signed_lt (magnitude_lt f _ _) _

theorem Operation.apply_lt (op : Operation) (a b : Nat) : op.apply f a b < 2 * f.signBit := by
  cases op with
  | add | sub => exact add_lt hf _ _
  | mul => exact mul_lt hf _ _
  | div => exact div_lt hf _ _

end

/-- A pattern without a value becomes the canonical one. -/
theorem canonical_eq (f : Format) (pattern : Nat) :
    canonical f pattern = if f.IsNaN pattern then f.canonicalNaN else pattern := by
  rw [canonical, Datum.isNaN_ofBits]
  simp only [decide_eq_true_eq]

end LegMachine.Ieee
