import LegMachine.Proofs.Exec.Alignment
import LegMachine.Proofs.Exec.Sums

/-!
# Comparing and branching

The flags of a difference tell how the two words compare (`Flags.Compares`): Zero whether they are
equal, Negative and oVerflow together how they are ordered as signed numbers. Carry would tell the
same of the unsigned ones, but a difference is a sum with the negated word, so it stays clear if
nothing is subtracted (`two_pow_le_toNat_add_neg`). A branch that follows a subtraction decides the
comparison that its mnemonic stands for, with exactly the exceptions that come from this
(`compare_then_branch`).
-/

namespace LegMachine

/-- The comparisons of two words, of signed numbers and of unsigned ones. -/
inductive Comparison where
  | eq | ne | ge | lt | gt | le | hs | lo | hi | ls
  deriving DecidableEq, Repr

namespace Comparison

def Holds (a b : Word) : Comparison → Prop
  | eq => a = b
  | ne => a ≠ b
  | ge => a.toInt ≥ b.toInt
  | lt => a.toInt < b.toInt
  | gt => a.toInt > b.toInt
  | le => a.toInt ≤ b.toInt
  | hs => a.toNat ≥ b.toNat
  | lo => a.toNat < b.toNat
  | hi => a.toNat > b.toNat
  | ls => a.toNat ≤ b.toNat

instance (a b : Word) : (c : Comparison) → Decidable (c.Holds a b)
  | eq => inferInstanceAs (Decidable (a = b))
  | ne => inferInstanceAs (Decidable (a ≠ b))
  | ge => inferInstanceAs (Decidable (a.toInt ≥ b.toInt))
  | lt => inferInstanceAs (Decidable (a.toInt < b.toInt))
  | gt => inferInstanceAs (Decidable (a.toInt > b.toInt))
  | le => inferInstanceAs (Decidable (a.toInt ≤ b.toInt))
  | hs => inferInstanceAs (Decidable (a.toNat ≥ b.toNat))
  | lo => inferInstanceAs (Decidable (a.toNat < b.toNat))
  | hi => inferInstanceAs (Decidable (a.toNat > b.toNat))
  | ls => inferInstanceAs (Decidable (a.toNat ≤ b.toNat))

/-- The comparison is one of unsigned numbers, which depends on the carry. -/
def isUnsigned : Comparison → Bool
  | hs | lo | hi | ls => true
  | _ => false

def condition : Comparison → Condition
  | eq => .eq | ne => .ne | ge => .ge | lt => .lt | gt => .gt | le => .le
  | hs => .cs | lo => .cc | hi => .hi | ls => .ls

/-- What the branches on the comparison are written with. -/
def mnemonics : Comparison → List (List Char)
  | eq => ["B.EQ".toList]
  | ne => ["B.NE".toList]
  | ge => ["B.GE".toList]
  | lt => ["B.LT".toList]
  | gt => ["B.GT".toList]
  | le => ["B.LE".toList]
  | hs => ["B.CS".toList, "B.HS".toList]
  | lo => ["B.CC".toList, "B.LO".toList]
  | hi => ["B.HI".toList]
  | ls => ["B.LS".toList]

theorem catalog_comparisons : ∀ d ∈ catalog, ∀ c ∈ [eq, ne, ge, lt, gt, le, hs, lo, hi, ls],
    d.mnemonic ∈ c.mnemonics → d.action = .bCond c.condition := by
  decide +kernel

/-- Whether a branch is taken agrees with the comparison. The exceptions are those of unsigned
numbers with zero, where nothing is ever higher or the same, and everything is lower. -/
structure DecidedBy (a b : Word) (taken : Prop) (c : Comparison) : Prop where
  agrees : (c.isUnsigned = true → b ≠ 0) → (taken ↔ c.Holds a b)
  withZero : c.isUnsigned = true → b = 0 → (taken ↔ c = lo ∨ c = ls)
  disagrees : ¬ (taken ↔ c.Holds a b) ↔ b = 0 ∧ (c = hs ∨ c = lo ∨ (c = hi ∨ c = ls) ∧ a ≠ 0)

end Comparison

/-! ## The flags of a difference -/

/-- The flags tell how two words compare. -/
structure Flags.Compares (a b : Word) (f : Flags) : Prop where
  zero : f.zero = decide (a = b)
  signs : (f.negative == f.overflow) = decide (b.toInt ≤ a.toInt)
  carry : f.carry = decide (b ≠ 0 ∧ b.toNat ≤ a.toNat)

namespace Flags.Compares

variable {a b : Word} {f : Flags}

theorem carry_of_ne_zero (h : f.Compares a b) (hb : b ≠ 0) :
    f.carry = decide (b.toNat ≤ a.toNat) := by
  rw [h.carry, decide_eq_decide]
  exact and_iff_right hb

theorem carry_of_zero (h : f.Compares a 0) : f.carry = false := by
  rw [h.carry, decide_eq_false_iff_not]
  exact fun hne => hne.1 rfl

end Flags.Compares

/-- A negated word carries if something is subtracted, and not too much. -/
theorem two_pow_le_toNat_add_neg (a b : Word) :
    2 ^ 32 ≤ a.toNat + (-b).toNat ↔ b ≠ 0 ∧ b.toNat ≤ a.toNat := by
  have hb := b.isLt
  have hzero : b ≠ 0 ↔ b.toNat ≠ 0 := not_congr (BitVec.toNat_inj (y := 0)).symm
  rw [hzero, BitVec.toNat_neg]
  omega

/-- The sign of a word is wrong exactly if it overflows. -/
theorem msb_ofInt_beq {s : Int} (h : -2 ^ 32 ≤ s ∧ s < 2 ^ 32) :
    ((BitVec.ofInt 32 s).msb == decide (¬ FitsWord s)) = decide (0 ≤ s) := by
  rw [BitVec.msb_eq_toInt, BitVec.toInt_ofInt, Int.bmod_def, Bool.eq_iff_iff, beq_iff_eq,
    decide_eq_decide, decide_eq_true_iff]
  unfold FitsWord
  split <;> omega

theorem Flags.compares_ofResult (f : Flags) (a b : Word) :
    (f.ofResult (BitVec.ofInt 32 (a.toInt - b.toInt)) (¬ FitsWord (a.toInt - b.toInt))
      (2 ^ 32 ≤ a.toNat + (-b).toNat)).Compares a b where
  zero := by
    have hdifference : BitVec.ofInt 32 (a.toInt - b.toInt) = a - b :=
      (SumOp.sub.apply_eq_ofInt a b).symm
    unfold ofResult
    rw [zero_replace, hdifference, Bool.eq_iff_iff, beq_iff_eq, decide_eq_true_iff,
      BitVec.sub_eq_iff_eq_add]
    simp
  signs := by
    have ha := fitsWord_toInt a
    have hb := fitsWord_toInt b
    unfold FitsWord at ha hb
    unfold ofResult
    rw [negative_replace, overflow_replace, msb_ofInt_beq (by omega), decide_eq_decide]
    omega
  carry := by
    unfold ofResult
    rw [carry_replace, decide_eq_decide, two_pow_le_toNat_add_neg]

namespace Comparison

variable {a b : Word} {f : Flags}

/-- With a carry to count on, a condition on the flags holds exactly if its comparison does. -/
theorem holds_condition_iff (h : f.Compares a b) {c : Comparison}
    (hb : c.isUnsigned = true → b ≠ 0) : c.condition.holds f = true ↔ c.Holds a b := by
  have hsigned : a = b ↔ a.toInt = b.toInt := BitVec.toInt_inj.symm
  have hunsigned : a = b ↔ a.toNat = b.toNat := BitVec.toNat_inj.symm
  cases c with
  | eq | ne | ge | lt => simp [condition, Condition.holds, Holds, bne, h.zero, h.signs]
  | gt | le =>
    simp only [condition, Condition.holds, Holds, bne, h.zero, h.signs, hsigned, Bool.and_eq_true,
      Bool.or_eq_true, Bool.not_eq_true', decide_eq_true_eq, decide_eq_false_iff_not]
    omega
  | hs | lo => simp [condition, Condition.holds, Holds, h.carry_of_ne_zero (hb rfl)]
  | hi | ls =>
    simp only [condition, Condition.holds, Holds, h.carry_of_ne_zero (hb rfl), h.zero, hunsigned,
      Bool.and_eq_true, Bool.or_eq_true, Bool.not_eq_true', decide_eq_true_eq,
      decide_eq_false_iff_not]
    omega

/-- Without one, everything is lower. -/
theorem holds_condition_of_zero (h : f.Compares a 0) {c : Comparison} (hc : c.isUnsigned = true) :
    c.condition.holds f = true ↔ c = lo ∨ c = ls := by
  cases c with
  | hs | lo | hi | ls => simp [condition, Condition.holds, h.carry_of_zero]
  | _ => cases hc

theorem holds_zero_iff {c : Comparison} (hc : c.isUnsigned = true) :
    c.Holds a 0 ↔ c = hs ∨ c = hi ∧ a ≠ 0 ∨ c = ls ∧ a = 0 := by
  have hzero : a = 0 ↔ a.toNat = 0 := BitVec.toNat_inj.symm
  have hpos : a ≠ 0 ↔ 0 < a.toNat := by rw [Ne, hzero, Nat.pos_iff_ne_zero]
  rw [hpos, hzero]
  cases c with
  | hs | lo | hi | ls => simp [Holds]
  | _ => cases hc

theorem decidedBy_of_compares (h : f.Compares a b) (c : Comparison) :
    c.DecidedBy a b (c.condition.holds f = true) where
  agrees hb := holds_condition_iff h hb
  withZero hc hb := by
    subst hb
    exact holds_condition_of_zero h hc
  disagrees := by
    by_cases hexcept : c.isUnsigned = true ∧ b = 0
    · obtain ⟨hc, rfl⟩ := hexcept
      rw [holds_condition_of_zero h hc, holds_zero_iff hc, and_iff_right rfl]
      by_cases ha : a = 0
      all_goals
        cases c with
        | hs | lo | hi | ls => simp [ha]
        | _ => cases hc
    · have hagrees := holds_condition_iff h fun hc hb => hexcept ⟨hc, hb⟩
      refine iff_of_false (not_not_intro hagrees) fun hzero => hexcept ⟨?_, hzero.1⟩
      rcases hzero.2 with rfl | rfl | ⟨rfl | rfl, -⟩ <;> rfl

end Comparison

/-! ## Steps -/

section

variable {d : Decoded} {m : Machine}

/-- The step of a subtraction that sets the flags compares its operands. -/
theorem compares_step (services : Registry)
    (hreads : m.Reads ⟨instructionSet.decode?, services⟩ d) (hsubs : d.descriptor.action = .subs) :
    ∃ n k after, Operand.register d.operands 1 = .ok n ∧ Operand.register d.operands 2 = .ok k ∧
      step ⟨instructionSet.decode?, services⟩ m = .done after ∧
      after.cpu.flags.Compares (m.cpu.x n) (m.cpu.x k) := by
  obtain ⟨w, -, hdecode⟩ := id hreads
  dsimp only at hdecode
  obtain ⟨i, hi⟩ := exists_ofOperands_of_decode? hdecode
  rw [hsubs] at hi
  obtain ⟨r, hr, n, hn, k, hk, rfl⟩ := Operand.three_eq_ok.1 hi
  rw [← hsubs] at hi
  refine ⟨n, k, _, hn, hk, step_of_run hreads hi (Instruction.run_sumFlags ..), ?_⟩
  have hneg : BitVec.ofInt 32 (Addend.value m.advancePc.cpu (.negated k)) = -m.cpu.x k := by
    show BitVec.ofInt 32 (-(m.cpu.x k).toInt) = _
    rw [BitVec.ofInt_neg, BitVec.ofInt_toInt]
  rw [hneg]
  show ((m.advancePc.cpu.setFlags _ _ _).setX r _).settle.flags.Compares _ _
  rw [Processor.flags_settle, Processor.flags_setX]
  exact m.cpu.flags.compares_ofResult (m.cpu.x n) (m.cpu.x k)

/-- The step of a conditional branch jumps if its condition holds. -/
theorem branch_step (services : Registry) {c : Condition}
    (hreads : m.Reads ⟨instructionSet.decode?, services⟩ d)
    (hbranch : d.descriptor.action = .bCond c) :
    ∃ field, Operand.word d.operands 0 = .ok field ∧
      step ⟨instructionSet.decode?, services⟩ m = .done (m.advancePc.mapCpu fun p =>
        (if c.holds m.cpu.flags then p.jump (regionTarget p.pc field) else p).settle) := by
  obtain ⟨w, -, hdecode⟩ := id hreads
  dsimp only at hdecode
  obtain ⟨i, hi⟩ := exists_ofOperands_of_decode? hdecode
  rw [hbranch] at hi
  obtain ⟨field, hfield, rfl⟩ := Operand.immediate_eq_ok.1 hi
  rw [← hbranch] at hi
  exact ⟨field, hfield, step_of_run hreads hi rfl⟩

/-- A branch on a comparison decides it for the operands of a subtraction, if the flags are still
those that the subtraction has set. -/
theorem compare_then_branch (services : Registry)
    (hreads : m.Reads ⟨instructionSet.decode?, services⟩ d) (hsubs : d.descriptor.action = .subs) :
    ∃ n k after, Operand.register d.operands 1 = .ok n ∧ Operand.register d.operands 2 = .ok k ∧
      step ⟨instructionSet.decode?, services⟩ m = .done after ∧
      ∀ {next : Machine} {branch : Decoded} {c : Comparison},
        next.cpu.flags = after.cpu.flags →
        next.Reads ⟨instructionSet.decode?, services⟩ branch →
        branch.descriptor.mnemonic ∈ c.mnemonics →
        ∃ field, ∃ taken : Bool, Operand.word branch.operands 0 = .ok field ∧
          step ⟨instructionSet.decode?, services⟩ next =
            .done (next.advancePc.mapCpu fun p =>
              (if taken then p.jump (regionTarget p.pc field) else p).settle) ∧
          c.DecidedBy (m.cpu.x n) (m.cpu.x k) (taken = true) := by
  obtain ⟨n, k, after, hn, hk, hstep, hcompares⟩ := compares_step services hreads hsubs
  refine ⟨n, k, after, hn, hk, hstep, ?_⟩
  intro next branch c hflags hbranch hmnemonic
  obtain ⟨w, -, hdecode⟩ := id hbranch
  dsimp only at hdecode
  have haction := Comparison.catalog_comparisons _ (descriptor_mem_of_decode? hdecode) c
    (by cases c <;> simp) hmnemonic
  obtain ⟨field, hfield, hnext⟩ := branch_step services hbranch haction
  rw [hflags] at hnext
  exact ⟨field, _, hfield, hnext, c.decidedBy_of_compares hcompares⟩

end

theorem decode?_subtraction :
    instructionSet.decode? 0x00221823 = some ⟨Catalog.arithmetic[3], [1, 2, 3], 0x00221823⟩ := by
  let e : Encoding := ⟨0xFC0007FF, 0x00000023, [⟨'d', [25, 24, 23, 22, 21]⟩,
    ⟨'n', [20, 19, 18, 17, 16]⟩, ⟨'m', [15, 14, 13, 12, 11]⟩]⟩
  have hcompile : Catalog.arithmetic[3].template.compile = .ok e := rfl
  exact decode?_of_compile (by simp [catalog]) hcompile (by decide) fun _ => by decide

theorem decode?_branchLess :
    instructionSet.decode? 0x51600010 = some ⟨Catalog.control[23], [16], 0x51600010⟩ := by
  let e : Encoding := ⟨0xFFE00000, 0x51600000, [⟨'i', (List.range 21).reverse⟩]⟩
  have hcompile : Catalog.control[23].template.compile = .ok e := rfl
  exact decode?_of_compile (by simp [catalog]) hcompile (by decide) fun _ => by decide

/-- The least word is less than one, although no word holds the difference. -/
theorem compare_then_branch_leastWord :
    let env : Environment := ⟨instructionSet.decode?, .empty⟩
    let m : Machine := ⟨((Processor.initial ⟨false⟩).setX 2 (BitVec.intMin 32)).setX 3 1,
      ⟨⟨#[0x23, 0x18, 0x22, 0, 0x10, 0, 0x60, 0x51]⟩, 0⟩, ""⟩
    let d : Decoded := ⟨Catalog.arithmetic[3], [1, 2, 3], 0x00221823⟩
    let branch : Decoded := ⟨Catalog.control[23], [16], 0x51600010⟩
    m.Reads env d ∧ d.descriptor.action = .subs ∧
      branch.descriptor.mnemonic ∈ Comparison.lt.mnemonics ∧
      ∃ after, step env m = .done after ∧ after.Reads env branch ∧
        ∃ last, step env after = .done last ∧ last.cpu.pc = 0x40 := by
  have hcompare := fun m d => @compare_then_branch d m .empty
  have hsubtraction := decode?_subtraction
  have hless := decode?_branchLess
  generalize instructionSet.decode? = decode at hcompare hsubtraction hless ⊢
  intro env m d branch
  have hfetch : m.memory.load 4 m.cpu.pc = .ok d.word := by decide
  have hreads : m.Reads env d := ⟨d.word, hfetch, hsubtraction⟩
  have hmnemonic : branch.descriptor.mnemonic ∈ Comparison.lt.mnemonics := by
    decide +kernel
  obtain ⟨n, k, after, hn, hk, hstep, hdecides⟩ := hcompare m d hreads rfl
  cases hn
  cases hk
  have hrun := step_of_run hreads (i := .sumFlags 1 2 (.negated 3)) rfl
    (Instruction.run_sumFlags ..)
  have hafter := Outcome.done.inj (hstep.symm.trans hrun)
  have hfetch' : after.memory.load 4 after.cpu.pc = .ok branch.word := by
    rw [hafter]
    decide
  have hbranch : after.Reads env branch := ⟨branch.word, hfetch', hless⟩
  obtain ⟨field, taken, hfield, hnext, hdecided⟩ := hdecides rfl hbranch hmnemonic
  cases hfield
  have htaken : taken = true := (hdecided.agrees nofun).2 (by decide)
  rw [htaken] at hnext
  refine ⟨hreads, rfl, hmnemonic, after, hstep, hbranch, _, hnext, ?_⟩
  rw [hafter]
  decide

end LegMachine
