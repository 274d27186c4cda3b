import LegMachine.Proofs.Exec.Sums
import Mathlib.Data.Int.ModEq

/-!
# Signed residues

Among the integers that are congruent modulo a power of two, one is a signed number of that many
bits (`signedResidue_iff`). The low bits of a word, extended with their sign, are that number for
the word (`toInt_signExtendLow_eq_bmod`), and the result of a flag-setting sum is that number of 32
bits for the exact sum. So an extension depends on the low bits only (`extendsLow`). With Carry as
the digit above it, the result is also the sum of the low words (`toNat_ofInt_add_carry`).
-/

namespace LegMachine

/-- The signed number of `width` bits that is congruent to `v` is `s`. -/
def SignedResidue (width : Nat) (v s : Int) : Prop :=
  -2 ^ (width - 1) ≤ s ∧ s ≤ 2 ^ (width - 1) - 1 ∧ s ≡ v [ZMOD 2 ^ width]

theorem signedResidue_iff {width : Nat} (hpos : 1 ≤ width) (v s : Int) :
    SignedResidue width v s ↔ s = v.bmod (2 ^ width) := by
  obtain ⟨k, rfl⟩ : ∃ k, width = k + 1 := ⟨width - 1, by omega⟩
  have hhalf : ((2 ^ (k + 1) : Nat) : Int) = 2 * 2 ^ k := by
    rw [Nat.pow_succ']
    push_cast
    rfl
  rw [eq_comm, Int.bmod_eq_iff (Nat.two_pow_pos _), SignedResidue, Int.modEq_comm,
    Int.modEq_iff_dvd, Nat.add_sub_cancel, hhalf, ← Int.pow_succ']
  omega

theorem bmod_two_pow_eq_iff {width : Nat} {v w : Int} :
    v.bmod (2 ^ width) = w.bmod (2 ^ width) ↔ v ≡ w [ZMOD 2 ^ width] := by
  rw [Int.bmod_eq_bmod_iff_bmod_sub_eq_zero, ← Int.dvd_iff_bmod_eq_zero, Int.modEq_comm,
    Int.modEq_iff_dvd]
  push_cast
  rfl

/-! ## Sign extension -/

/-- What becomes of a word whose low bits are extended with their sign. -/
structure ExtendsLow (width : Nat) (v : Word) : Prop where
  /-- One shift up and one back extend the sign, and neither meets a hazard. -/
  shifts : Checked.signExtend width v = .ok (signExtendLow width v)
  residue (s : Int) : SignedResidue width v.toInt s ↔ s = (signExtendLow width v).toInt
  lowBits (w : Word) :
    signExtendLow width w = signExtendLow width v ↔ w.toInt ≡ v.toInt [ZMOD 2 ^ width]
  idempotent : signExtendLow width (signExtendLow width v) = signExtendLow width v

section

variable {width : Nat}

theorem toInt_signExtendLow_eq_bmod (hle : width ≤ 32) (v : Word) :
    (signExtendLow width v).toInt = v.toInt.bmod (2 ^ width) := by
  rw [toInt_signExtendLow hle, ← BitVec.signExtend_eq_setWidth_of_le v hle,
    BitVec.toInt_signExtend_eq_toInt_bmod_of_le v hle]

theorem signExtendLow_eq_iff (hle : width ≤ 32) (v w : Word) :
    signExtendLow width w = signExtendLow width v ↔ w.toInt ≡ v.toInt [ZMOD 2 ^ width] := by
  rw [← BitVec.toInt_inj, toInt_signExtendLow_eq_bmod hle, toInt_signExtendLow_eq_bmod hle,
    bmod_two_pow_eq_iff]

theorem extendsLow (hpos : 1 ≤ width) (hle : width ≤ 32) (v : Word) : ExtendsLow width v := by
  have hresidue (s : Int) :
      SignedResidue width v.toInt s ↔ s = (signExtendLow width v).toInt := by
    rw [signedResidue_iff hpos, toInt_signExtendLow_eq_bmod hle]
  have hcongr : (signExtendLow width v).toInt ≡ v.toInt [ZMOD 2 ^ width] :=
    ((hresidue _).2 rfl).2.2
  exact {
    shifts := Checked.signExtend_eq hpos hle v
    residue := hresidue
    lowBits := signExtendLow_eq_iff hle v
    idempotent := (signExtendLow_eq_iff hle v _).2 hcongr }

end

/-! ## Sums with flags -/

/-- The sum of two integers, cut to a word, with flags that tell what is lost. -/
structure FlagSum.IsExact (sum : FlagSum) (a b : Int) : Prop where
  result (s : Int) : SignedResidue 32 (a + b) s ↔ s = sum.result.toInt
  overflow : sum.overflow = true ↔ sum.result.toInt ≠ a + b
  carry : (sum.result.toNat : Int) + 2 ^ 32 * sum.carry.toNat = a % 2 ^ 32 + b % 2 ^ 32

theorem natCast_toNat_ofInt (v : Int) : ((BitVec.ofInt 32 v).toNat : Int) = v % 2 ^ 32 := by
  rw [BitVec.toNat_ofInt]
  exact Int.toNat_of_nonneg (Int.emod_nonneg _ (by decide))

/-- The result and the carry are the two digits of the sum of the low words. -/
theorem toNat_ofInt_add_carry (a b : Int) :
    ((BitVec.ofInt 32 (a + b)).toNat : Int) + 2 ^ 32 *
        (decide (2 ^ 32 ≤ (BitVec.ofInt 32 a).toNat + (BitVec.ofInt 32 b).toNat)).toNat =
      a % 2 ^ 32 + b % 2 ^ 32 := by
  have hsum := natCast_toNat_ofInt (a + b)
  have ha := natCast_toNat_ofInt a
  have hb := natCast_toNat_ofInt b
  by_cases hcarry : 2 ^ 32 ≤ (BitVec.ofInt 32 a).toNat + (BitVec.ofInt 32 b).toNat
  · rw [decide_eq_true hcarry, Bool.toNat_true]
    omega
  · rw [decide_eq_false hcarry, Bool.toNat_false]
    omega

theorem addWithFlags?_isExact {a b : Int} (h : -2 ^ 63 ≤ a + b ∧ a + b < 2 ^ 63) :
    ∃ sum, addWithFlags? a b = some sum ∧ sum.IsExact a b := by
  refine ⟨_, addWithFlags?_eq h, ?_, ?_, toNat_ofInt_add_carry a b⟩
  · intro s
    rw [signedResidue_iff (by decide), BitVec.toInt_ofInt]
  · rw [decide_eq_true_iff, ne_eq, toInt_ofInt_eq_self_iff]

/-- The low bits of a word, from one up to 32, are extended to the one signed number of that many
bits that is congruent to the word. Two numbers of 64 bits whose sum has 64 bits are added up to the
one signed word that is congruent to the sum; oVerflow tells whether it differs from the sum, and
Carry is the digit above it in the sum of the low words. -/
theorem extensions_and_sums_exact :
    (∀ {width : Nat}, 1 ≤ width → width ≤ 32 → ∀ v, ExtendsLow width v) ∧
      ∀ {a b : BitVec 64}, -2 ^ 63 ≤ a.toInt + b.toInt → a.toInt + b.toInt < 2 ^ 63 →
        ∃ sum, addWithFlags? a.toInt b.toInt = some sum ∧ Checked.addWithFlags a b = .ok sum ∧
          sum.IsExact a.toInt b.toInt := by
  refine ⟨extendsLow, fun {a b} hlower hupper => ?_⟩
  obtain ⟨sum, hsum, hexact⟩ := addWithFlags?_isExact ⟨hlower, hupper⟩
  obtain ⟨checked, hchecked, hrun⟩ := Checked.addWithFlags_eq ⟨hlower, hupper⟩
  obtain rfl : sum = checked := Option.some_inj.1 (hsum.symm.trans hchecked)
  exact ⟨sum, hsum, hrun, hexact⟩

/-- The least displacement of 26 bits, and the largest sum of 64 bits. -/
theorem extensions_and_sums_exact_extremes :
    let a : BitVec 64 := 0x4000000000000000
    let b : BitVec 64 := 0x3FFFFFFFFFFFFFFF
    1 ≤ 26 ∧ 26 ≤ 32 ∧ ExtendsLow 26 0x2000000 ∧
      (signExtendLow 26 0x2000000).toInt = -2 ^ 25 ∧
      -2 ^ 63 ≤ a.toInt + b.toInt ∧ a.toInt + b.toInt = 2 ^ 63 - 1 ∧
      ∃ sum, addWithFlags? a.toInt b.toInt = some sum ∧ Checked.addWithFlags a b = .ok sum ∧
        sum.IsExact a.toInt b.toInt ∧ sum = ⟨-1, false, true⟩ := by
  intro a b
  obtain ⟨hextend, hadd⟩ := extensions_and_sums_exact
  obtain ⟨sum, hsum, hchecked, hexact⟩ := hadd (a := a) (b := b) (by decide) (by decide)
  have hvalue : addWithFlags? a.toInt b.toInt = some ⟨-1, false, true⟩ := by decide
  exact ⟨by decide, by decide, hextend (by decide) (by decide) _, by decide, by decide, by decide,
    sum, hsum, hchecked, hexact, Option.some_inj.1 (hsum.symm.trans hvalue)⟩

end LegMachine
