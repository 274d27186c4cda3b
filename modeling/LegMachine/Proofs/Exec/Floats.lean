import LegMachine.Proofs.Exec.Footprint
import LegMachine.Proofs.Exec.Sums
import LegMachine.Proofs.Ieee.Order

/-!
# Comparisons and operations of floating-point registers

A number stands in a register, or in an even register and the next one with the high word in the
next (`Processor.pattern`). A comparison has one of four outcomes, which are told by the sign and
the magnitude of the two patterns and by nothing else (`floatCompare_outcome`). Whatever unit does
the arithmetic, what an operation leaves in its destination is the pattern of a value as it stands,
or the one canonical pattern without a value (`floatOp_canonical`).
-/

namespace LegMachine

namespace Precision

def format : Precision → Ieee.Format
  | single => .single
  | double => .double

def bits : Precision → Nat
  | single => 32
  | double => 64

/-- The registers that may be named as operands. -/
def Admits : Precision → Register → Prop
  | single, _ => True
  | double, r => r.val % 2 = 0

instance (r : Register) : (precision : Precision) → Decidable (precision.Admits r)
  | single => inferInstanceAs (Decidable True)
  | double => inferInstanceAs (Decidable (r.val % 2 = 0))

/-- The registers that hold a number, the low word of it first. -/
def registers : Precision → Register → List Register
  | single, r => [r]
  | double, r => [r, nextRegister r]

/-- The pattern that stands for all those without a value. -/
def canonicalNaN : Precision → Nat
  | single => 0x7FC00000
  | double => 0x7FF8000000000000

theorem canonicalNaN_eq (precision : Precision) :
    precision.format.canonicalNaN = precision.canonicalNaN := by
  cases precision <;> decide

theorem exponentBits_pos (precision : Precision) : 0 < precision.format.exponentBits := by
  cases precision <;> decide

end Precision

/-- The bits of the number in a register, or in it and the next one. -/
def Processor.pattern (p : Processor) : Precision → Register → Nat
  | .single, r => (p.s r).toNat
  | .double, r => (p.s (nextRegister r) ++ p.s r).toNat

theorem Processor.pattern_pair (p : Processor) (pair : RegisterPair) :
    p.pattern .double pair.lower = (p.double pair).toNat := by
  rw [pattern, double, pair.upper_eq]

theorem Processor.pattern_congr {p q : Processor} (h : q.floats = p.floats)
    (precision : Precision) (r : Register) : q.pattern precision r = p.pattern precision r := by
  cases precision <;> simp only [pattern, s, h]

/-! ## Comparisons -/

def Flags.ofRelation (f : Flags) : Ieee.Relation → Flags
  | .unordered => f.replace false false true false
  | .equal => f.replace false true false true
  | .less => f.replace true false false false
  | .greater => f.replace false false false true

def Precision.compareAction : Precision → Action
  | single => .fcmps
  | double => .fcmpd

/-- Set the flags that stand for a relation, and nothing else. -/
def Machine.withRelation (r : Ieee.Relation) (m : Machine) : Machine :=
  m.mapCpu fun p => { p with flags := p.flags.ofRelation r }

theorem Processor.setRelation_eq (r : Ieee.Relation) (p : Processor) :
    p.setRelation r = { p with flags := p.flags.ofRelation r } := by
  cases r <;> rfl

theorem succ_lt_of_even {r : Register} (h : r.val % 2 = 0) : r.val + 1 < 32 := by
  omega

theorem Machine.withPair_eq (r : Register) (m : Machine)
    (use : RegisterPair → Outcome TrapCause) :
    m.withPair r use = if h : r.val % 2 = 0 then use ⟨r, succ_lt_of_even h⟩
      else .trapped (.invalidOperand .oddRegister) m := by
  unfold withPair RegisterPair.ofRegister?
  by_cases h : r.val % 2 = 0
  · rw [dif_pos h, dif_pos h]
  · rw [dif_neg h, dif_neg h]

/-- A comparison sets the flags for the relation of the two patterns. -/
theorem Instruction.run_floatCompare (services : Registry) (precision : Precision)
    (n k : Register) (m : Machine) :
    (floatCompare precision n k).run services m =
      if precision.Admits n ∧ precision.Admits k then
        .done (m.withRelation (Ieee.compare precision.format (m.cpu.pattern precision n)
          (m.cpu.pattern precision k)))
      else .trapped (.invalidOperand .oddRegister) m := by
  unfold Machine.withRelation
  simp only [← Processor.setRelation_eq]
  cases precision with
  | single =>
    rw [if_pos ⟨trivial, trivial⟩]
    rfl
  | double =>
    show m.withPair n _ = _
    simp only [Machine.withPair_eq]
    by_cases hn : n.val % 2 = 0
    · by_cases hk : k.val % 2 = 0
      · rw [dif_pos hn, dif_pos hk, if_pos ⟨hn, hk⟩]
        rw [← Processor.pattern_pair, ← Processor.pattern_pair]
        rfl
      · rw [dif_pos hn, dif_neg hk, if_neg fun h => hk h.2]
    · rw [dif_neg hn, if_neg fun h => hn h.1]

/-- A comparison has exactly one of four outcomes. It is told by the sign and the magnitude of the
two patterns, and by nothing else of the machine, and the other order of the operands gives the
reverse of it. A double in an odd register is refused, and nothing has changed. -/
theorem floatCompare_outcome (services : Registry) (precision : Precision)
    (ops swapped : List Word) {n k : Register}
    (hn : Operand.register ops 0 = .ok n) (hk : Operand.register ops 1 = .ok k)
    (hn' : Operand.register swapped 1 = .ok n) (hk' : Operand.register swapped 0 = .ok k)
    (m : Machine) :
    if precision.Admits n ∧ precision.Admits k then
      ∃ r, (∀ r', precision.format.Relates (m.cpu.pattern precision n)
          (m.cpu.pattern precision k) r' ↔ r' = r) ∧
        ∀ next : Machine, next.cpu.floats = m.cpu.floats →
          execute services precision.compareAction ops next = .done (next.withRelation r) ∧
          execute services precision.compareAction swapped next =
            .done (next.withRelation r.swap)
    else execute services precision.compareAction ops m =
      .trapped (.invalidOperand .oddRegister) m := by
  have hrun {ops : List Word} {n k : Register} (hn : Operand.register ops 0 = .ok n)
      (hk : Operand.register ops 1 = .ok k) (m : Machine) :
      execute services precision.compareAction ops m =
        (Instruction.floatCompare precision n k).run services m := by
    have hops : Instruction.ofOperands precision.compareAction ops =
        .ok (.floatCompare precision n k) := by
      cases precision <;> exact Operand.two_eq_ok.2 ⟨n, hn, k, hk, rfl⟩
    exact execute_of_operands hops services m
  split
  · next hadmits =>
    refine ⟨_, fun r' => (Ieee.relates_iff precision.exponentBits_pos _ _ r').trans eq_comm,
      fun next hfloats => ⟨?_, ?_⟩⟩
    · rw [hrun hn hk, Instruction.run_floatCompare, if_pos hadmits,
        Processor.pattern_congr hfloats, Processor.pattern_congr hfloats]
    · rw [hrun hk' hn', Instruction.run_floatCompare, if_pos hadmits.symm,
        Processor.pattern_congr hfloats, Processor.pattern_congr hfloats,
        Ieee.compare_swap precision.exponentBits_pos]
  · next hadmits => rw [hrun hn hk, Instruction.run_floatCompare, if_neg hadmits]

/-- The two zeros are equal, the greatest negative number is less than either of them, and a double
in an odd register is refused, also as the second operand. -/
theorem floatCompare_outcome_zeros :
    let m : Machine :=
      ⟨(((Processor.initial ⟨false⟩).setS 3 0x80000000).setS 5 0x80000000).setS 4 1,
        ⟨⟨#[]⟩, 0⟩, ""⟩
    execute .empty .fcmpd [0, 2] m = .done (m.withRelation .equal) ∧
      execute .empty .fcmpd [2, 4] m = .done (m.withRelation .greater) ∧
      execute .empty .fcmpd [4, 2] m = .done (m.withRelation .less) ∧
      execute .empty .fcmpd [0, 3] m = .trapped (.invalidOperand .oddRegister) m := by
  intro m
  obtain ⟨r, hr, hzeros⟩ :=
    floatCompare_outcome .empty .double [0, 2] [2, 0] rfl rfl rfl rfl m
  obtain ⟨r', hr', hnumbers⟩ :=
    floatCompare_outcome .empty .double [2, 4] [4, 2] rfl rfl rfl rfl m
  obtain rfl := (hr .equal).1 ⟨by decide +kernel, by decide +kernel⟩
  obtain rfl := (hr' .greater).1 ⟨by decide +kernel, by decide +kernel⟩
  exact ⟨(hzeros m rfl).1, (hnumbers m rfl).1, (hnumbers m rfl).2,
    floatCompare_outcome .empty .double [0, 3] [3, 0] rfl rfl rfl rfl m⟩

/-! ## Operations -/

def Ieee.Operation.action : Ieee.Operation → Precision → Action
  | add, .single => .fadds
  | sub, .single => .fsubs
  | mul, .single => .fmuls
  | div, .single => .fdivs
  | add, .double => .faddd
  | sub, .double => .fsubd
  | mul, .double => .fmuld
  | div, .double => .fdivd

/-- Write what a unit makes of two numbers. Nothing is asked of the unit. -/
def Machine.combine (d n k : Register) (m : Machine) :
    (precision : Precision) → (Nat → Nat → BitVec precision.bits) → Outcome TrapCause
  | .single, unit =>
    .done (m.mapCpu (·.setSingle d (unit (m.cpu.s n).toNat (m.cpu.s k).toNat).toNat))
  | .double, unit =>
    m.withPair d fun d => m.withPair n fun n => m.withPair k fun k =>
      .done (m.mapCpu (·.setDouble d (unit (m.cpu.double n).toNat (m.cpu.double k).toNat).toNat))

/-- The result stands in the destination, a result without a value as the canonical pattern. No
other register has changed, and nothing else of the machine. -/
structure Machine.ReceivesFloat (precision : Precision) (d : Register) (result : Nat)
    (m after : Machine) : Prop where
  value : after.cpu.pattern precision d =
    if precision.format.IsNaN result then precision.canonicalNaN else result
  others : ∀ r ∉ precision.registers d, after.cpu.s r = m.cpu.s r
  rest : after = m.mapCpu fun p => { p with floats := after.cpu.floats }

namespace Precision

theorem fractionBits_pos (precision : Precision) : 0 < precision.format.fractionBits := by
  cases precision <;> decide

theorem two_mul_signBit (precision : Precision) :
    2 * precision.format.signBit = 2 ^ precision.bits := by
  cases precision <;> rfl

theorem toNat_ofNat_apply (precision : Precision) (op : Ieee.Operation) (a b : Nat) :
    (BitVec.ofNat precision.bits (op.apply precision.format a b)).toNat =
      op.apply precision.format a b := by
  rw [BitVec.toNat_ofNat, ← precision.two_mul_signBit]
  exact Nat.mod_eq_of_lt (op.apply_lt precision.fractionBits_pos a b)

theorem toNat_ofNat_canonical (precision : Precision) (v : BitVec precision.bits) :
    (BitVec.ofNat precision.bits (Ieee.canonical precision.format v.toNat)).toNat =
      if precision.format.IsNaN v.toNat then precision.canonicalNaN else v.toNat := by
  rw [Ieee.canonical_eq]
  split
  · have hlt := Ieee.Format.canonicalNaN_lt precision.fractionBits_pos
    rw [two_mul_signBit] at hlt
    rw [BitVec.toNat_ofNat, Nat.mod_eq_of_lt hlt, canonicalNaN_eq]
  · rw [BitVec.ofNat_toNat, BitVec.setWidth_eq]

end Precision

namespace Processor

theorem double_setDouble (pair : RegisterPair) (pattern : Nat) (p : Processor) :
    (p.setDouble pair pattern).double pair =
      BitVec.ofNat 64 (Ieee.canonical .double pattern) := by
  have hne : pair.upper ≠ pair.lower := Fin.ne_of_val_ne (Nat.succ_ne_self _)
  unfold setDouble double
  simp only [s_setS, if_neg hne, if_true]
  exact BitVec.extractLsb'_append_extractLsb'

/-- A double that has a value is read as it was written. -/
theorem double_setDouble_of_value (p : Processor) (pair : RegisterPair) (v : BitVec 64)
    (h : ¬ Ieee.Format.double.IsNaN v.toNat) : (p.setDouble pair v.toNat).double pair = v := by
  rw [double_setDouble, Ieee.canonical_eq, if_neg h, BitVec.ofNat_toNat, BitVec.setWidth_eq]

end Processor

theorem Machine.receivesFloat_setSingle (d : Register) (v : BitVec 32) (m : Machine) :
    m.ReceivesFloat .single d v.toNat (m.mapCpu (·.setSingle d v.toNat)) where
  value := by
    show ((m.cpu.setSingle d v.toNat).s d).toNat = _
    rw [Processor.setSingle, Processor.s_setS, if_pos rfl]
    exact Precision.single.toNat_ofNat_canonical v
  others r hr := by
    have hne : r ≠ d := fun h => hr (h ▸ List.mem_singleton_self r)
    show (m.cpu.setSingle d v.toNat).s r = _
    rw [Processor.setSingle, Processor.s_setS, if_neg hne]
  rest := rfl

theorem Machine.receivesFloat_setDouble (pair : RegisterPair) (v : BitVec 64) (m : Machine) :
    m.ReceivesFloat .double pair.lower v.toNat (m.mapCpu (·.setDouble pair v.toNat)) where
  value := by
    rw [Processor.pattern_pair]
    show ((m.cpu.setDouble pair v.toNat).double pair).toNat = _
    rw [Processor.double_setDouble]
    exact Precision.double.toNat_ofNat_canonical v
  others r hr := by
    rw [Precision.registers, ← pair.upper_eq, List.mem_pair, not_or] at hr
    show (m.cpu.setDouble pair v.toNat).s r = _
    rw [Processor.setDouble, Processor.s_setS, if_neg hr.1, Processor.s_setS, if_neg hr.2]
  rest := rfl

theorem Instruction.run_floatOp (services : Registry) (op : Ieee.Operation)
    (precision : Precision) (d n k : Register) (m : Machine) :
    (floatOp op precision d n k).run services m =
      m.combine d n k precision fun a b => .ofNat _ (op.apply precision.format a b) := by
  cases precision with
  | single =>
    simp only [Machine.combine, Precision.single.toNat_ofNat_apply]
    rfl
  | double =>
    simp only [Machine.combine, Precision.double.toNat_ofNat_apply]
    rfl

/-- The parity of all three registers is checked before anything else. -/
theorem Machine.combine_outcome (d n k : Register) (m : Machine) (precision : Precision)
    (unit : Nat → Nat → BitVec precision.bits) :
    if precision.Admits d ∧ precision.Admits n ∧ precision.Admits k then
      ∃ after, m.combine d n k precision unit = .done after ∧
        m.ReceivesFloat precision d
          (unit (m.cpu.pattern precision n) (m.cpu.pattern precision k)).toNat after
    else m.combine d n k precision unit = .trapped (.invalidOperand .oddRegister) m := by
  cases precision with
  | single =>
    rw [if_pos ⟨trivial, trivial, trivial⟩]
    exact ⟨_, rfl, m.receivesFloat_setSingle d _⟩
  | double =>
    simp only [combine, withPair_eq]
    by_cases hd : d.val % 2 = 0
    · by_cases hn : n.val % 2 = 0
      · by_cases hk : k.val % 2 = 0
        · rw [if_pos ⟨hd, hn, hk⟩, dif_pos hd, dif_pos hn, dif_pos hk, ← Processor.pattern_pair,
            ← Processor.pattern_pair]
          exact ⟨_, rfl, m.receivesFloat_setDouble ⟨d, _⟩ _⟩
        · rw [dif_pos hd, dif_pos hn, dif_neg hk, if_neg fun h => hk h.2.2]
      · rw [dif_pos hd, dif_neg hn, if_neg fun h => hn h.2.1]
    · rw [dif_neg hd, if_neg fun h => hd h.1]

/-- An operation is a unit's work on the two numbers as they were before it. Whatever unit does that
work, the destination holds a result that has a value as it stands, and any other one as the one
canonical pattern; a double in an odd register is refused, and nothing has changed. A double that
has a value is read as it was written. -/
theorem floatOp_canonical (services : Registry) (op : Ieee.Operation) (precision : Precision)
    (ops : List Word) {d n k : Register} (hd : Operand.register ops 0 = .ok d)
    (hn : Operand.register ops 1 = .ok n) (hk : Operand.register ops 2 = .ok k) (m : Machine) :
    (execute services (op.action precision) ops m =
      m.combine d n k precision fun a b => .ofNat _ (op.apply precision.format a b)) ∧
    (∀ unit : Nat → Nat → BitVec precision.bits,
      if precision.Admits d ∧ precision.Admits n ∧ precision.Admits k then
        ∃ after, m.combine d n k precision unit = .done after ∧
          m.ReceivesFloat precision d
            (unit (m.cpu.pattern precision n) (m.cpu.pattern precision k)).toNat after
      else m.combine d n k precision unit = .trapped (.invalidOperand .oddRegister) m) ∧
    ∀ (pair : RegisterPair) (v : BitVec 64), ¬ Ieee.Format.double.IsNaN v.toNat →
      (m.cpu.setDouble pair v.toNat).double pair = v := by
  refine ⟨?_, m.combine_outcome d n k precision, m.cpu.double_setDouble_of_value⟩
  have hops : Instruction.ofOperands (op.action precision) ops =
      .ok (.floatOp op precision d n k) := by
    cases op <;> cases precision <;> exact Operand.three_eq_ok.2 ⟨d, hd, n, hn, k, hk, rfl⟩
  rw [execute_of_operands hops, Instruction.run_floatOp]

/-- Zero over zero in one pair, of which a unit may make any pattern without a value. -/
theorem floatOp_canonical_aliased :
    let m : Machine := ⟨(Processor.initial ⟨false⟩).setS 3 0x80000000, ⟨⟨#[]⟩, 0⟩, ""⟩
    let unit : Nat → Nat → BitVec 64 := fun _ _ => 0xFFF4000000000001
    ∃ after, m.combine 2 2 2 .double unit = .done after ∧
      after.cpu.double ⟨2, by decide⟩ = 0x7FF8000000000000 ∧ after.cpu.s 4 = m.cpu.s 4 ∧
      execute .empty .fdivd [2, 2, 2] m = .done after ∧
      m.combine 2 2 3 .double unit = .trapped (.invalidOperand .oddRegister) m ∧
      (m.cpu.setDouble ⟨2, by decide⟩ 0x4008000000000001).double ⟨2, by decide⟩ =
        0x4008000000000001 := by
  intro m unit
  obtain ⟨hrun, hcombine, hread⟩ :=
    floatOp_canonical .empty .div .double [2, 2, 2] rfl rfl rfl m
  obtain ⟨-, hodd, -⟩ := floatOp_canonical .empty .div .double [2, 2, 3] rfl rfl rfl m
  obtain ⟨after, hafter, hreceives⟩ := hcombine unit
  refine ⟨after, hafter, BitVec.eq_of_toNat_eq (hreceives.value.trans (by decide +kernel)),
    hreceives.others 4 (by decide), ?_, hodd unit,
    hread ⟨2, by decide⟩ 0x4008000000000001 (by decide)⟩
  rw [← hafter]
  exact hrun.trans (by decide +kernel)

end LegMachine
