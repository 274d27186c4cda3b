import LegMachine.Proofs.Exec.Sums

/-!
# Exact products and quotients

64 bits hold the product of two words, so a product instruction is always done
(`ProductPart.result_eq`). The high word of a product and its low word together are the product, for
the signed values and for the unsigned ones (`toInt_mul_eq`, `toNat_mul_eq`). A quotient is rounded
toward zero and leaves a remainder that is smaller than the divisor (`isQuotient_sdiv`); only the
least word divided by minus one has none. `execute_products` says so of the actions.
-/

namespace LegMachine

/-! ## Products -/

namespace ProductPart

/-- The part of the product of two words that is kept. -/
def of (a b : Word) : ProductPart → Word
  | low => a * b
  | signedHigh => BitVec.ofInt 32 (a.toInt * b.toInt / 2 ^ 32)
  | unsignedHigh => BitVec.ofNat 32 (a.toNat * b.toNat / 2 ^ 32)

theorem ofInt_mul_toInt (a b : Word) : BitVec.ofInt 32 (a.toInt * b.toInt) = a * b := by
  rw [BitVec.ofInt_mul, BitVec.ofInt_toInt, BitVec.ofInt_toInt]

theorem result_eq (part : ProductPart) (a b : Word) : part.apply? a b = some (part.of a b) := by
  unfold ProductPart.apply?
  cases part with
  | low => rw [wide?_mul, Option.map_some, of, ofInt_mul_toInt]
  | signedHigh =>
    rw [wide?_mul]
    rfl
  | unsignedHigh =>
    rw [unsignedWide?_mul]
    rfl

end ProductPart

section

variable (a b : Word)

theorem toInt_mul_eq :
    (ProductPart.signedHigh.of a b).toInt * 2 ^ 32 + (ProductPart.low.of a b).toNat =
      a.toInt * b.toInt := by
  have hbounds := toInt_mul_bounds a b
  have hlow : (a * b).toNat = (a.toInt * b.toInt % 2 ^ 32).toNat := by
    rw [← ProductPart.ofInt_mul_toInt]
    exact BitVec.toNat_ofInt ..
  have hhigh : (BitVec.ofInt 32 (a.toInt * b.toInt / 2 ^ 32)).toInt =
      a.toInt * b.toInt / 2 ^ 32 := by
    rw [toInt_ofInt_eq_self_iff, FitsWord]
    omega
  rw [ProductPart.of, ProductPart.of, hhigh, hlow]
  omega

theorem toNat_mul_eq :
    (ProductPart.unsignedHigh.of a b).toNat * 2 ^ 32 + (ProductPart.low.of a b).toNat =
      a.toNat * b.toNat := by
  have hlt := toNat_mul_lt a b
  have hhigh : (BitVec.ofNat 32 (a.toNat * b.toNat / 2 ^ 32)).toNat =
      a.toNat * b.toNat / 2 ^ 32 := by
    rw [BitVec.toNat_ofNat]
    omega
  rw [ProductPart.of, ProductPart.of, hhigh, BitVec.toNat_mul]
  omega

end

/-! ## Quotients -/

/-- The quotient of two integers, rounded toward zero: the remainder is smaller than the divisor,
and it is zero or has the sign of the dividend. -/
def IsQuotient (a b q : Int) : Prop :=
  ∃ r, a = q * b + r ∧ r.natAbs < b.natAbs ∧ (r = 0 ∨ r.sign = a.sign)

theorem isQuotient_tdiv (a : Int) {b : Int} (h : b ≠ 0) : IsQuotient a b (a.tdiv b) := by
  refine ⟨a.tmod b, ?_, ?_, ?_⟩
  · rw [Int.mul_comm, Int.mul_tdiv_add_tmod]
  · rw [Int.natAbs_tmod]
    exact Nat.mod_lt _ (Int.natAbs_pos.2 h)
  · rw [Int.sign_tmod]
    split
    · next hdvd => exact .inl (Int.tmod_eq_zero_of_dvd hdvd)
    · exact .inr rfl

theorem isQuotient_sdiv {a b : Word} (hb : b ≠ 0) (h : ¬ (a = BitVec.intMin 32 ∧ b = -1)) :
    IsQuotient a.toInt b.toInt (a.sdiv b).toInt := by
  have hne : b.toInt ≠ 0 := fun hzero => hb (BitVec.eq_of_toInt_eq hzero)
  rw [BitVec.toInt_sdiv_of_ne_or_ne a b (not_and_or.1 h)]
  exact isQuotient_tdiv _ hne

/-! ## Actions -/

/-- The action is done with the word in the register, unless that is the zero register, and nothing
else has changed. -/
def Machine.Computes (services : Registry) (action : Action) (ops : List Word) (d : Register)
    (v : Word) (m : Machine) : Prop :=
  ∃ after, execute services action ops m = .done after ∧ m.Receives d v.toInt after

section

variable {action : Action} {ops : List Word} {d n k : Register} {i : Instruction} {v : Word}
  {m : Machine} (services : Registry)

theorem computes_of_run (hi : Instruction.ofOperands action ops = .ok i)
    (hrun : i.run services m = .done (m.mapCpu (·.setX d v))) :
    m.Computes services action ops d v := by
  have hreceives := Machine.receives_setX (fitsWord_toInt v) d m
  rw [BitVec.ofInt_toInt] at hreceives
  exact ⟨_, (execute_of_operands hi services m).trans hrun, hreceives⟩

namespace Instruction

theorem run_product (part : ProductPart) (d n k : Register) (m : Machine) :
    (product part d n k).run services m =
      .done (m.mapCpu (·.setX d (part.of (m.cpu.x n) (m.cpu.x k)))) := by
  unfold run
  dsimp only
  rw [part.result_eq]

theorem run_quotient (isSigned : Bool) {n k : Register} (d : Register) {m : Machine}
    (h : m.cpu.x k ≠ 0) :
    (quotient isSigned d n k).run services m = .done (m.mapCpu (·.setX d
      (if isSigned then (m.cpu.x n).sdiv (m.cpu.x k) else (m.cpu.x n).udiv (m.cpu.x k)))) := by
  unfold run quotient?
  dsimp only
  rw [if_neg h]

theorem run_quotient_zero (isSigned : Bool) {k : Register} (d n : Register) {m : Machine}
    (h : m.cpu.x k = 0) : (quotient isSigned d n k).run services m = .done m := by
  unfold run quotient?
  dsimp only
  rw [if_pos h]

end Instruction

variable (hd : Operand.register ops 0 = .ok d) (hn : Operand.register ops 1 = .ok n)
  (hk : Operand.register ops 2 = .ok k)
include hd hn hk

/-- For all values of two registers the high and the low word of their product make the exact
product, a quotient is the exact one rounded toward zero, with one exception, and nothing is done
for a divisor of zero. No flag changes and nothing traps. -/
theorem execute_products (m : Machine) :
    let a := m.cpu.x n
    let b := m.cpu.x k
    (∃ low high unsignedHigh : Word, m.Computes services .mul ops d low ∧
      m.Computes services .smulh ops d high ∧ m.Computes services .umulh ops d unsignedHigh ∧
      high.toInt * 2 ^ 32 + low.toNat = a.toInt * b.toInt ∧
      unsignedHigh.toNat * 2 ^ 32 + low.toNat = a.toNat * b.toNat) ∧
    (b ≠ 0 → ∃ q r, m.Computes services .udiv ops d q ∧
      a.toNat = q.toNat * b.toNat + r ∧ r < b.toNat) ∧
    (b ≠ 0 → ∃ q, m.Computes services .sdiv ops d q ∧
      if a = BitVec.intMin 32 ∧ b = -1 then q = BitVec.intMin 32
      else IsQuotient a.toInt b.toInt q.toInt) ∧
    (b = 0 → execute services .udiv ops m = .done m ∧ execute services .sdiv ops m = .done m) := by
  intro a b
  have hmake (make : Register → Register → Register → Instruction) :
      Operand.three ops make = .ok (make d n k) :=
    Operand.three_eq_ok.2 ⟨d, hd, n, hn, k, hk, rfl⟩
  refine ⟨?_, fun hb => ?_, fun hb => ?_, fun hb => ?_⟩
  · refine ⟨_, _, _, ?_, ?_, ?_, toInt_mul_eq a b, toNat_mul_eq a b⟩
    · exact computes_of_run services (hmake _) (Instruction.run_product services _ d n k m)
    · exact computes_of_run services (hmake _) (Instruction.run_product services _ d n k m)
    · exact computes_of_run services (hmake _) (Instruction.run_product services _ d n k m)
  · have hpos : 0 < b.toNat := Nat.pos_of_ne_zero fun h => hb (BitVec.eq_of_toNat_eq h)
    refine ⟨a.udiv b, a.toNat % b.toNat,
      computes_of_run services (hmake _) (Instruction.run_quotient services false d hb), ?_,
      Nat.mod_lt _ hpos⟩
    rw [BitVec.udiv_eq, BitVec.toNat_udiv, Nat.div_add_mod']
  · refine ⟨a.sdiv b,
      computes_of_run services (hmake _) (Instruction.run_quotient services true d hb), ?_⟩
    split
    · next hleast => rw [hleast.1, hleast.2]; exact BitVec.intMin_sdiv_neg_one
    · next hleast => exact isQuotient_sdiv hb hleast
  · have hdone (isSigned : Bool) : (Instruction.quotient isSigned d n k).run services m = .done m :=
      Instruction.run_quotient_zero services isSigned d n hb
    have hunsigned : Instruction.ofOperands .udiv ops = .ok (.quotient false d n k) := hmake _
    have hsigned : Instruction.ofOperands .sdiv ops = .ok (.quotient true d n k) := hmake _
    rw [execute_of_operands hunsigned, execute_of_operands hsigned]
    exact ⟨hdone false, hdone true⟩

end

/-- The product of the least word and minus one is no word, and neither is their quotient. -/
theorem execute_products_leastWord :
    let m : Machine := ⟨((Processor.initial ⟨false⟩).setX 2 (BitVec.intMin 32)).setX 3 (-1),
      ⟨⟨#[]⟩, 0⟩, ""⟩
    let ops : List Word := [2, 2, 3]
    Operand.register ops 0 = .ok 2 ∧ Operand.register ops 1 = .ok 2 ∧
      Operand.register ops 2 = .ok 3 ∧
      (∃ low high : Word, m.Computes .empty .mul ops 2 low ∧ m.Computes .empty .smulh ops 2 high ∧
        high.toInt * 2 ^ 32 + low.toNat = 2 ^ 31) ∧
      m.Computes .empty .sdiv ops 2 (BitVec.intMin 32) := by
  intro m ops
  have hd : Operand.register ops 0 = .ok 2 := rfl
  have hn : Operand.register ops 1 = .ok 2 := rfl
  have hk : Operand.register ops 2 = .ok 3 := rfl
  obtain ⟨⟨low, high, _, hlow, hhigh, -, hproduct, -⟩, -, hsigned, -⟩ :=
    execute_products .empty hd hn hk m
  obtain ⟨q, hq, hleast⟩ := hsigned (by decide)
  rw [if_pos (by decide)] at hleast
  rw [hleast] at hq
  exact ⟨hd, hn, hk, ⟨low, high, hlow, hhigh, hproduct.trans (by decide)⟩, hq⟩

end LegMachine
