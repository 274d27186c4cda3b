import LegMachine.Machine.Processor
import Mathlib.Algebra.Group.Int.Defs
import Mathlib.Algebra.Group.Nat.Defs

/-!
# Registers, jumps and regions

Writing an integer register leaves the rest of the processor as it is. A jump without delayed
branching continues at once, and an empty delay slot leaves it there. A target of at most 26 bits
stands for an address of the region of 2²⁸ bytes around the program counter
(`toNat_regionTarget`); it is read back from the address (`regionTarget_inj`), and the next word has
the same region unless it begins one (`regionTarget_next_iff`).
-/

namespace LegMachine

namespace Processor

@[simp] theorem config_setX (r : Register) (v : Word) (p : Processor) :
    (p.setX r v).config = p.config := by
  unfold setX
  split <;> rfl

@[simp] theorem flags_setX (r : Register) (v : Word) (p : Processor) :
    (p.setX r v).flags = p.flags := by
  unfold setX
  split <;> rfl

@[simp] theorem delay_setX (r : Register) (v : Word) (p : Processor) :
    (p.setX r v).delay = p.delay := by
  unfold setX
  split <;> rfl

theorem jump_of_immediate {p : Processor} (h : p.config.delayedBranching = false) (target : Word) :
    p.jump target = p.setPc target := by
  unfold jump
  rw [h]
  rfl

theorem settle_of_empty {p : Processor} (h : p.delay = .empty) : p.settle = p := by
  obtain ⟨pc, flags, integers, floats, delay, halted, config⟩ := p
  obtain rfl : delay = .empty := h
  rfl

@[simp] theorem flags_settle (p : Processor) : p.settle.flags = p.flags := by
  obtain ⟨pc, flags, integers, floats, delay, halted, config⟩ := p
  cases delay <;> rfl

theorem pc_settle_jump {p : Processor} (hnow : p.config.delayedBranching = false)
    (hempty : p.delay = .empty) (target : Word) : (p.jump target).settle.pc = target := by
  have hslot : (p.setPc target).delay = .empty := hempty
  rw [jump_of_immediate hnow, settle_of_empty hslot]
  rfl

end Processor

/-! ## Targets of a region -/

theorem toNat_region (pc : Word) :
    (pc &&& 0xF0000000#32).toNat = 2 ^ 28 * (pc.toNat / 2 ^ 28) := by
  have hpc : pc.toNat < 2 ^ 32 := pc.isLt
  have hmask : 0xF0000000#32 = BitVec.allOnes 32 <<< 28 := by decide
  have hhigh : pc &&& 0xF0000000#32 = (pc >>> 28) <<< 28 := by
    apply BitVec.eq_of_getLsbD_eq
    intro i hi
    rw [hmask, BitVec.getLsbD_and, BitVec.getLsbD_shiftLeft, BitVec.getLsbD_shiftLeft,
      BitVec.getLsbD_ushiftRight, BitVec.getLsbD_allOnes]
    by_cases hlow : i < 28
    · simp [hlow]
    · have hback : 28 + (i - 28) = i := by omega
      have hone : i - 28 < 32 := by omega
      simp [hlow, hback, hone, hi]
  rw [hhigh, BitVec.toNat_shiftLeft, BitVec.toNat_ushiftRight, Nat.shiftLeft_eq,
    Nat.shiftRight_eq_div_pow]
  omega

theorem toNat_regionTarget (pc : Word) {field : Word} (hfield : field.toNat < 2 ^ 26) :
    (regionTarget pc field).toNat = 2 ^ 28 * (pc.toNat / 2 ^ 28) + 4 * field.toNat := by
  have hshift : (field <<< 2).toNat = 4 * field.toNat := by
    rw [BitVec.toNat_shiftLeft, Nat.shiftLeft_eq]
    omega
  show (pc &&& 0xF0000000#32 ||| field <<< 2).toNat = _
  rw [BitVec.toNat_or, toNat_region, hshift]
  exact (Nat.two_pow_add_eq_or_of_lt (by omega) _).symm

theorem regionTarget_inj {pc v w : Word} (hv : v.toNat < 2 ^ 26) (hw : w.toNat < 2 ^ 26)
    (h : regionTarget pc v = regionTarget pc w) : v = w := by
  have hn := congrArg BitVec.toNat h
  rw [toNat_regionTarget pc hv, toNat_regionTarget pc hw] at hn
  exact BitVec.eq_of_toNat_eq (by omega)

/-- The word behind an instruction is in another region if the instruction ends one. -/
theorem regionTarget_next_iff {pc field : Word} (hpc : pc.toNat % 4 = 0)
    (hfield : field.toNat < 2 ^ 26) :
    regionTarget (pc + instructionLength) field = regionTarget pc field ↔
      pc.toNat % 2 ^ 28 ≠ 2 ^ 28 - 4 := by
  have hlt : pc.toNat < 2 ^ 32 := pc.isLt
  have hnext : (pc + instructionLength).toNat = (pc.toNat + 4) % 2 ^ 32 := BitVec.toNat_add pc 4
  rw [← BitVec.toNat_inj, toNat_regionTarget _ hfield, toNat_regionTarget _ hfield, hnext]
  omega

end LegMachine
