import LegMachine.Proofs.Exec.Hazards
import LegMachine.Proofs.Machine.Processor

/-!
# Exact sums

The signs of two words and of their sum or difference show whether a word holds the exact result
(`SumOp.overflows_iff`), and the forms that set the flags compare the word with the result itself
(`addWithFlags?_eq`). So an action that traps on overflow writes the exact integer or nothing
(`execute_exact`). The form of it that sets the flags sets oVerflow where the other one traps, and
writes the same where it does not (`sumForms_agree`). The least immediate is an exception: it has no
negation of 16 bits, so that form adds it instead of subtracting it.
-/

namespace LegMachine

/-- A word holds the integer as a signed number. -/
def FitsWord (s : Int) : Prop :=
  -2 ^ 31 ≤ s ∧ s < 2 ^ 31

instance (s : Int) : Decidable (FitsWord s) :=
  inferInstanceAs (Decidable (_ ∧ _))

theorem fitsWord_toInt (w : Word) : FitsWord w.toInt :=
  ⟨BitVec.le_toInt w, BitVec.toInt_lt⟩

theorem toInt_ofInt_eq_self_iff {s : Int} : (BitVec.ofInt 32 s).toInt = s ↔ FitsWord s := by
  constructor
  · intro h
    rw [← h]
    exact fitsWord_toInt _
  · intro h
    exact BitVec.toInt_ofInt_eq_self (by decide) h.1 h.2

namespace SumOp

def exactValue : SumOp → Int → Int → Int
  | add, a, b => a + b
  | sub, a, b => a - b

theorem apply_eq_ofInt (op : SumOp) (a b : Word) :
    op.apply a b = BitVec.ofInt 32 (op.exactValue a.toInt b.toInt) := by
  cases op with
  | add => rw [apply, exactValue, BitVec.ofInt_add, BitVec.ofInt_toInt, BitVec.ofInt_toInt]
  | sub =>
    rw [apply, exactValue, Int.sub_eq_add_neg, BitVec.ofInt_add, BitVec.ofInt_neg,
      BitVec.ofInt_toInt, BitVec.ofInt_toInt, BitVec.sub_eq_add_neg]

/-- The signs tell exactly whether the result is too large for a word. -/
theorem overflows_iff (op : SumOp) (a b : Word) :
    op.overflows a b = true ↔ ¬ FitsWord (op.exactValue a.toInt b.toInt) := by
  have hrange : ∀ s : Int, ¬ FitsWord s ↔ 2 ^ 31 ≤ s ∨ s < -2 ^ 31 := by
    intro s
    unfold FitsWord
    omega
  rw [hrange]
  cases op with
  | add =>
    have hsigns : add.overflows a b = a.saddOverflow b := by
      rw [overflows, BitVec.saddOverflow_eq]
      rfl
    rw [hsigns, BitVec.saddOverflow, Bool.or_eq_true, decide_eq_true_iff, decide_eq_true_iff]
    rfl
  | sub =>
    have hsigns : sub.overflows a b = a.ssubOverflow b := by
      rw [overflows, BitVec.ssubOverflow_eq]
      cases a.msb <;> cases b.msb <;> cases (a - b).msb <;> rfl
    rw [hsigns, BitVec.ssubOverflow, Bool.or_eq_true, decide_eq_true_iff, decide_eq_true_iff]
    rfl

end SumOp

/-! ## Instructions -/

namespace Instruction

theorem run_sum (services : Registry) (op : SumOp) (d n : Register) (source : Source)
    (m : Machine) :
    (sum op d n source).run services m =
      let s := op.exactValue (m.cpu.x n).toInt (source.value m.cpu).toInt
      if FitsWord s then .done (m.mapCpu (·.setX d (BitVec.ofInt 32 s)))
      else .trapped .arithmeticOverflow m := by
  have hover := op.overflows_iff (m.cpu.x n) (source.value m.cpu)
  unfold run
  dsimp only
  rw [SumOp.apply_eq_ofInt]
  by_cases hfits : FitsWord (op.exactValue (m.cpu.x n).toInt (source.value m.cpu).toInt)
  · rw [if_neg fun h => hover.1 h hfits, if_pos hfits]
  · rw [if_pos (hover.2 hfits), if_neg hfits]

end Instruction

/-- A sum of 64 bits with its flags: the carry comes from the low words, and oVerflow tells whether
the sum is too large for a word. -/
theorem addWithFlags?_eq {a b : Int} (h : -2 ^ 63 ≤ a + b ∧ a + b < 2 ^ 63) :
    addWithFlags? a b = some {
      result := BitVec.ofInt 32 (a + b)
      carry := 2 ^ 32 ≤ (BitVec.ofInt 32 a).toNat + (BitVec.ofInt 32 b).toNat
      overflow := ¬ FitsWord (a + b) } := by
  unfold addWithFlags?
  rw [wide?_eq_some (by omega) (by omega)]
  simp only [Option.map_some, ne_eq, toInt_ofInt_eq_self_iff]
  rfl

namespace Instruction

theorem run_sumFlags (services : Registry) (d n : Register) (addend : Addend) (m : Machine) :
    (sumFlags d n addend).run services m =
      let s := (m.cpu.x n).toInt + addend.value m.cpu
      let carry := 2 ^ 32 ≤ (m.cpu.x n).toNat + (BitVec.ofInt 32 (addend.value m.cpu)).toNat
      .done (m.mapCpu fun p =>
        (p.setFlags (BitVec.ofInt 32 s) (¬ FitsWord s) carry).setX d (BitVec.ofInt 32 s)) := by
  have hn := fitsWord_toInt (m.cpu.x n)
  have haddend := addend.value_bounds m.cpu
  unfold FitsWord at hn
  unfold run
  dsimp only
  -- an addend may be the negation of the least word, so the sum needs 33 bits, not 32
  rw [addWithFlags?_eq (by omega), BitVec.ofInt_toInt]

end Instruction

theorem execute_of_operands {action : Action} {ops : List Word} {i : Instruction}
    (h : Instruction.ofOperands action ops = .ok i) (services : Registry) (m : Machine) :
    execute services action ops m = i.run services m := by
  unfold execute
  rw [h]

/-! ## Actions -/

namespace Action

open Operand

/-- An action that traps on overflow forms a sum or difference of its operands, for a register. An
immediate counts as the signed number in its low 16 bits. -/
inductive Forms (ops : List Word) (p : Processor) : Action → Register → Int → Prop where
  | add {d n k : Register} : register ops 0 = .ok d → register ops 1 = .ok n →
      register ops 2 = .ok k → Forms ops p .add d ((p.x n).toInt + (p.x k).toInt)
  | sub {d n k : Register} : register ops 0 = .ok d → register ops 1 = .ok n →
      register ops 2 = .ok k → Forms ops p .sub d ((p.x n).toInt - (p.x k).toInt)
  | addi {d n : Register} {v : Word} : register ops 0 = .ok d → register ops 1 = .ok n →
      word ops 2 = .ok v → Forms ops p .addi d ((p.x n).toInt + (v.setWidth 16).toInt)
  | subi {d n : Register} {v : Word} : register ops 0 = .ok d → register ops 1 = .ok n →
      word ops 2 = .ok v → Forms ops p .subi d ((p.x n).toInt - (v.setWidth 16).toInt)

/-- The form of an action that sets the flags and does not trap. -/
def flagForm? : Action → Option Action
  | add => some adds
  | sub => some subs
  | addi => some addis
  | subi => some subis
  | _ => none

/-- The action subtracts the least immediate, which has no negation of 16 bits. -/
def SubtractsLeast (action : Action) (ops : List Word) : Prop :=
  action = .subi ∧ ops[2]?.map (·.setWidth 16) = some (BitVec.intMin 16)

instance (action : Action) (ops : List Word) : Decidable (action.SubtractsLeast ops) :=
  inferInstanceAs (Decidable (_ ∧ _))

/-- The integer that the form setting the flags adds up in place of `s`. The least immediate is
added there, not subtracted. -/
def flagSum (action : Action) (ops : List Word) (s : Int) : Int :=
  if action.SubtractsLeast ops then s - 2 ^ 16 else s

end Action

theorem toInt_signExtendLow {width : Nat} (h : width ≤ 32) (v : Word) :
    (signExtendLow width v).toInt = (v.setWidth width).toInt :=
  BitVec.toInt_signExtend_of_le h

/-- The sign may change before the immediate is extended, unless it is the least one. -/
theorem signExtendLow_neg {v : Word} (h : v.setWidth 16 ≠ BitVec.intMin 16) :
    signExtendLow 16 (-v) = -signExtendLow 16 v := by
  have hneg : ((-v).setWidth 16).toInt = -(v.setWidth 16).toInt := by
    rw [BitVec.setWidth_neg_of_le (by decide), BitVec.toInt_neg_of_ne_intMin h]
  show BitVec.ofInt 32 ((-v).setWidth 16).toInt = -BitVec.ofInt 32 (v.setWidth 16).toInt
  rw [hneg, BitVec.ofInt_neg]

theorem signExtendLow_neg_of_least {v : Word} (h : v.setWidth 16 = BitVec.intMin 16) :
    signExtendLow 16 (-v) = signExtendLow 16 v := by
  rw [signExtendLow, signExtendLow, BitVec.setWidth_neg_of_le (by decide), h, BitVec.neg_intMin]

/-- The register holds the integer, unless it is the zero register, and nothing else has changed. -/
structure Machine.Receives (d : Register) (s : Int) (m after : Machine) : Prop where
  value : d ≠ zeroRegister → (after.cpu.x d).toInt = s
  dropped : d = zeroRegister → after = m
  others (r : Register) : r ≠ d → after.cpu.x r = m.cpu.x r
  rest : after = m.mapCpu fun p => { p with integers := after.cpu.integers }

theorem Machine.receives_setX {s : Int} (h : FitsWord s) (d : Register) (m : Machine) :
    m.Receives d s (m.mapCpu (·.setX d (BitVec.ofInt 32 s))) where
  value hd := by
    show ((m.cpu.setX d _).x d).toInt = s
    rw [Processor.x_setX, if_pos ⟨rfl, hd⟩, toInt_ofInt_eq_self_iff.2 h]
  dropped hd := by
    rw [hd]
    exact congrArg (fun p => { m with cpu := p }) (m.cpu.setX_zeroRegister _)
  others r hr := by
    show (m.cpu.setX d _).x r = m.cpu.x r
    rw [Processor.x_setX, if_neg fun h => hr h.1]
  rest := by
    unfold mapCpu Processor.setX
    split <;> rfl

theorem Action.subtractsLeast_iff {ops : List Word} {v : Word} (h : Operand.word ops 2 = .ok v) :
    subi.SubtractsLeast ops ↔ v.setWidth 16 = BitVec.intMin 16 := by
  unfold Operand.word at h
  cases hv : ops[2]? with
  | none => rw [hv] at h; cases h
  | some w =>
    rw [hv] at h
    cases h
    unfold SubtractsLeast
    rw [hv]
    simp

namespace Action.Forms

open Operand

variable {action flagged : Action} {ops : List Word} {p : Processor} {d : Register} {s : Int}

theorem exists_sum (h : action.Forms ops p d s) :
    ∃ op n source, Instruction.ofOperands action ops = .ok (.sum op d n source) ∧
      op.exactValue (p.x n).toInt (source.value p).toInt = s := by
  cases h with
  | @add d n k hd hn hk =>
    exact ⟨.add, n, .register k, three_eq_ok.2 ⟨d, hd, n, hn, k, hk, rfl⟩, rfl⟩
  | @sub d n k hd hn hk =>
    exact ⟨.sub, n, .register k, three_eq_ok.2 ⟨d, hd, n, hn, k, hk, rfl⟩, rfl⟩
  | @addi d n v hd hn hv =>
    refine ⟨.add, n, .immediate _, twoImmediate_eq_ok.2 ⟨d, hd, n, hn, v, hv, rfl⟩, ?_⟩
    rw [SumOp.exactValue, Source.value, toInt_signExtendLow (by decide)]
  | @subi d n v hd hn hv =>
    refine ⟨.sub, n, .immediate _, twoImmediate_eq_ok.2 ⟨d, hd, n, hn, v, hv, rfl⟩, ?_⟩
    rw [SumOp.exactValue, Source.value, toInt_signExtendLow (by decide)]

theorem exists_sumFlags (h : action.Forms ops p d s) (hflagged : action.flagForm? = some flagged) :
    ∃ n addend, Instruction.ofOperands flagged ops = .ok (.sumFlags d n addend) ∧
      (p.x n).toInt + addend.value p = action.flagSum ops s := by
  cases h with
  | @add d n k hd hn hk =>
    cases hflagged
    exact ⟨n, .register k, three_eq_ok.2 ⟨d, hd, n, hn, k, hk, rfl⟩, rfl⟩
  | @sub d n k hd hn hk =>
    cases hflagged
    exact ⟨n, .negated k, three_eq_ok.2 ⟨d, hd, n, hn, k, hk, rfl⟩, rfl⟩
  | @addi d n v hd hn hv =>
    cases hflagged
    refine ⟨n, .immediate _, twoImmediate_eq_ok.2 ⟨d, hd, n, hn, v, hv, rfl⟩, ?_⟩
    rw [Addend.value, toInt_signExtendLow (by decide)]
    rfl
  | @subi d n v hd hn hv =>
    cases hflagged
    refine ⟨n, .immediate _, twoImmediate_eq_ok.2 ⟨d, hd, n, hn, v, hv, rfl⟩, ?_⟩
    rw [Addend.value, flagSum]
    by_cases hleast : v.setWidth 16 = BitVec.intMin 16
    · have hmin : (BitVec.intMin 16).toInt = -2 ^ 15 := by decide
      rw [if_pos ((subtractsLeast_iff hv).2 hleast), signExtendLow_neg_of_least hleast,
        toInt_signExtendLow (by decide), hleast, hmin]
      omega
    · rw [if_neg (mt (subtractsLeast_iff hv).1 hleast), toInt_signExtendLow (by decide),
        BitVec.setWidth_neg_of_le (by decide), BitVec.toInt_neg_of_ne_intMin hleast]
      rfl

/-- Adding and subtracting the least immediate do not both overflow. -/
theorem fitsWord_or_of_subtractsLeast (h : action.Forms ops p d s)
    (hleast : action.SubtractsLeast ops) : FitsWord s ∨ FitsWord (s - 2 ^ 16) := by
  cases h with
  | add | sub | addi => cases hleast.1
  | @subi d n v hd hn hv =>
    have hmin : (BitVec.intMin 16).toInt = -2 ^ 15 := by decide
    have hn := fitsWord_toInt (p.x n)
    rw [(subtractsLeast_iff hv).1 hleast, hmin]
    unfold FitsWord at *
    omega

end Action.Forms

section

variable {action flagged : Action} {ops : List Word} {m : Machine} {d : Register} {s : Int}

theorem execute_of_forms (services : Registry) (h : action.Forms ops m.cpu d s) :
    execute services action ops m =
      if FitsWord s then .done (m.mapCpu (·.setX d (BitVec.ofInt 32 s)))
      else .trapped .arithmeticOverflow m := by
  obtain ⟨op, n, source, hi, rfl⟩ := h.exists_sum
  rw [execute_of_operands hi]
  exact Instruction.run_sum services op d n source m

theorem execute_flagForm (services : Registry) (h : action.Forms ops m.cpu d s)
    (hflagged : action.flagForm? = some flagged) :
    ∃ carry, execute services flagged ops m = .done (m.mapCpu fun p =>
      (p.setFlags (BitVec.ofInt 32 (action.flagSum ops s)) (¬ FitsWord (action.flagSum ops s))
        carry).setX d (BitVec.ofInt 32 (action.flagSum ops s))) := by
  obtain ⟨n, addend, hi, hsum⟩ := h.exists_sumFlags hflagged
  rw [execute_of_operands hi, ← hsum]
  exact ⟨_, Instruction.run_sumFlags services d n addend m⟩

/-- An action that traps on overflow does so exactly if no word holds its sum or difference, and has
changed nothing then. Otherwise it writes that integer and changes nothing else. -/
theorem execute_exact (services : Registry) (h : action.Forms ops m.cpu d s) :
    (execute services action ops m = .trapped .arithmeticOverflow m ↔ ¬ FitsWord s) ∧
      (FitsWord s → ∃ after, execute services action ops m = .done after ∧
        m.Receives d s after) := by
  rw [execute_of_forms services h]
  by_cases hfits : FitsWord s
  · rw [if_pos hfits]
    exact ⟨iff_of_false nofun (not_not_intro hfits),
      fun _ => ⟨_, rfl, Machine.receives_setX hfits d m⟩⟩
  · rw [if_neg hfits]
    exact ⟨iff_of_true rfl hfits, fun h => absurd h hfits⟩

/-- The least word has no negation. The least immediate can be subtracted from it. -/
theorem execute_exact_leastWord :
    let m : Machine := ⟨(Processor.initial ⟨false⟩).setX 2 (BitVec.intMin 32), ⟨⟨#[]⟩, 0⟩, ""⟩
    Action.sub.Forms [1, 31, 2] m.cpu 1 (2 ^ 31) ∧
      Action.subi.Forms [2, 2, 0x8000] m.cpu 2 (2 ^ 15 - 2 ^ 31) ∧
      execute .empty .sub [1, 31, 2] m = .trapped .arithmeticOverflow m ∧
      ∃ after, execute .empty .subi [2, 2, 0x8000] m = .done after ∧
        m.Receives 2 (2 ^ 15 - 2 ^ 31) after := by
  intro m
  have hsub : Action.sub.Forms [1, 31, 2] m.cpu 1 (2 ^ 31) := by
    have hvalue : (m.cpu.x 31).toInt - (m.cpu.x 2).toInt = 2 ^ 31 := by decide
    rw [← hvalue]
    exact .sub rfl rfl rfl
  have hsubi : Action.subi.Forms [2, 2, 0x8000] m.cpu 2 (2 ^ 15 - 2 ^ 31) := by
    have hvalue : (m.cpu.x 2).toInt - ((0x8000 : Word).setWidth 16).toInt = 2 ^ 15 - 2 ^ 31 := by
      decide
    rw [← hvalue]
    exact .subi rfl rfl rfl
  exact ⟨hsub, hsubi, (execute_exact .empty hsub).1.2 (by decide),
    (execute_exact .empty hsubi).2 (by decide)⟩

namespace Processor

theorem overflow_setFlags_setX (p : Processor) (result v : Word) (d : Register)
    (overflow carry : Bool) :
    ((p.setFlags result overflow carry).setX d v).flags.overflow = overflow := by
  rw [flags_setX]
  exact Flags.overflow_replace ..

theorem integers_setX_eq_iff {p q : Processor} {d : Register} {v w : Word}
    (h : p.integers = q.integers) :
    (p.setX d v).integers = (q.setX d w).integers ↔ (d ≠ zeroRegister → v = w) := by
  unfold setX
  by_cases hd : d = zeroRegister
  · rw [if_pos hd, if_pos hd]
    exact iff_of_true h fun hne => absurd hd hne
  · rw [if_neg hd, if_neg hd]
    refine ⟨fun hset _ => ?_, fun hvw => ?_⟩
    · have hd' := congrArg (fun x : Vector Word 32 => x[d]) hset
      simpa using hd'
    · show p.integers.set d v = q.integers.set d w
      rw [h, hvw hd]

end Processor

/-- Where the outcome is a trap, the other form has set oVerflow. Otherwise oVerflow is clear there,
and the registers are the same. -/
inductive FormsAgree (m after : Machine) : Outcome TrapCause → Prop where
  | trapped : after.cpu.flags.overflow = true → FormsAgree m after (.trapped .arithmeticOverflow m)
  | done {plain : Machine} : after.cpu.flags.overflow = false →
      plain.cpu.integers = after.cpu.integers → FormsAgree m after (.done plain)

theorem formsAgree_iff (d : Register) (s t : Int) (carry : Bool) (m : Machine) :
    FormsAgree m
        (m.mapCpu fun p =>
          (p.setFlags (BitVec.ofInt 32 t) (¬ FitsWord t) carry).setX d (BitVec.ofInt 32 t))
        (if FitsWord s then .done (m.mapCpu (·.setX d (BitVec.ofInt 32 s)))
          else .trapped .arithmeticOverflow m) ↔
      (FitsWord s ↔ FitsWord t) ∧ (FitsWord s → d ≠ zeroRegister → s = t) := by
  have hflags := Processor.overflow_setFlags_setX m.cpu (BitVec.ofInt 32 t) (BitVec.ofInt 32 t) d
    (decide (¬ FitsWord t)) carry
  have hregisters := Processor.integers_setX_eq_iff (p := m.cpu)
    (q := m.cpu.setFlags (BitVec.ofInt 32 t) (¬ FitsWord t) carry) (d := d)
    (v := BitVec.ofInt 32 s) (w := BitVec.ofInt 32 t) rfl
  by_cases hs : FitsWord s
  · rw [if_pos hs]
    constructor
    · rintro (_ | ⟨hoverflow, heq⟩)
      have ht : FitsWord t := not_not.1 (of_decide_eq_false (hflags.symm.trans hoverflow))
      refine ⟨iff_of_true hs ht, fun _ hd => ?_⟩
      have hwords := congrArg BitVec.toInt (hregisters.1 heq hd)
      rwa [toInt_ofInt_eq_self_iff.2 hs, toInt_ofInt_eq_self_iff.2 ht] at hwords
    · rintro ⟨hfits, heq⟩
      refine .done (hflags.trans ?_) (hregisters.2 fun hd => by rw [heq hs hd])
      rw [decide_eq_false_iff_not, not_not]
      exact hfits.1 hs
  · rw [if_neg hs]
    constructor
    · rintro (hoverflow | _)
      have ht : ¬ FitsWord t := of_decide_eq_true (hflags.symm.trans hoverflow)
      exact ⟨iff_of_false hs ht, fun h => absurd h hs⟩
    · rintro ⟨hfits, -⟩
      exact .trapped (hflags.trans (decide_eq_true fun h => hs (hfits.2 h)))

theorem execute_subis (services : Registry) {n : Register} {v : Word}
    (hd : Operand.register ops 0 = .ok d) (hn : Operand.register ops 1 = .ok n)
    (hv : Operand.word ops 2 = .ok v) (hne : d ≠ zeroRegister) :
    ∃ after, execute services .subis ops m = .done after ∧
      after.cpu.x d = m.cpu.x n + signExtendLow 16 (-v) := by
  have hi : Instruction.ofOperands .subis ops =
      .ok (.sumFlags d n (.immediate (signExtendLow 16 (-v)))) :=
    Operand.twoImmediate_eq_ok.2 ⟨d, hd, n, hn, v, hv, rfl⟩
  rw [execute_of_operands hi]
  refine ⟨_, Instruction.run_sumFlags services d n _ m, ?_⟩
  show ((m.cpu.setFlags _ _ _).setX d _).x d = _
  rw [Processor.x_setX, if_pos ⟨rfl, hne⟩, Addend.value, BitVec.ofInt_add, BitVec.ofInt_toInt,
    BitVec.ofInt_toInt]

/-- The form of an action that sets the flags agrees with the one that traps, unless it subtracts
the least immediate. That one is added, and the forms agree only if neither overflows and both
results are dropped. -/
theorem sumForms_agree (services : Registry) (m : Machine) :
    (∀ {action flagged : Action} {ops : List Word} {d : Register} {s : Int},
      action.flagForm? = some flagged → action.Forms ops m.cpu d s →
        ∃ after, execute services flagged ops m = .done after ∧
          (FormsAgree m after (execute services action ops m) ↔
            (action.SubtractsLeast ops →
              d = zeroRegister ∧ FitsWord s ∧ FitsWord (s - 2 ^ 16)))) ∧
      ∀ {ops : List Word} {d n : Register} {v : Word}, Operand.register ops 0 = .ok d →
        Operand.register ops 1 = .ok n → Operand.word ops 2 = .ok v → d ≠ zeroRegister →
          ∃ after, execute services .subis ops m = .done after ∧
            (after.cpu.x d = m.cpu.x n - signExtendLow 16 v ↔
              v.setWidth 16 ≠ BitVec.intMin 16) := by
  constructor
  · intro action flagged ops d s hflagged h
    obtain ⟨carry, hdone⟩ := execute_flagForm services h hflagged
    refine ⟨_, hdone, ?_⟩
    rw [execute_of_forms services h, formsAgree_iff, Action.flagSum]
    by_cases hleast : action.SubtractsLeast ops
    · have hone := h.fitsWord_or_of_subtractsLeast hleast
      rw [if_pos hleast]
      -- the sums differ by 2¹⁶, so the forms agree only if neither is written nor overflows
      constructor
      · rintro ⟨hfits, heq⟩ -
        have hs : FitsWord s := hone.elim id hfits.2
        have hd : d = zeroRegister := by_contra fun hd => absurd (heq hs hd) (by omega)
        exact ⟨hd, hs, hfits.1 hs⟩
      · intro hdropped
        obtain ⟨hd, hs, ht⟩ := hdropped hleast
        exact ⟨iff_of_true hs ht, fun _ hne => absurd hd hne⟩
    · rw [if_neg hleast]
      exact iff_of_true ⟨Iff.rfl, fun _ _ => rfl⟩ fun h => absurd h hleast
  · intro ops d n v hd hn hv hne
    obtain ⟨after, hdone, hx⟩ := execute_subis (m := m) services hd hn hv hne
    refine ⟨after, hdone, ?_⟩
    rw [hx]
    by_cases hleast : v.setWidth 16 = BitVec.intMin 16
    · rw [signExtendLow_neg_of_least hleast, signExtendLow, hleast]
      refine iff_of_false (fun h => ?_) (not_not_intro rfl)
      rw [BitVec.sub_eq_add_neg, BitVec.add_right_inj] at h
      exact absurd h (by decide)
    · rw [signExtendLow_neg hleast, ← BitVec.sub_eq_add_neg]
      exact iff_of_true rfl hleast

/-- Subtracting the next larger immediate from the largest word overflows in both forms. -/
theorem sumForms_agree_overflow :
    let m : Machine := ⟨(Processor.initial ⟨false⟩).setX 2 (BitVec.intMax 32), ⟨⟨#[]⟩, 0⟩, ""⟩
    let ops : List Word := [1, 2, 0x8001]
    Action.subi.flagForm? = some .subis ∧ Action.subi.Forms ops m.cpu 1 (2 ^ 31 + 32766) ∧
      Operand.register ops 0 = .ok 1 ∧ Operand.register ops 1 = .ok 2 ∧
      Operand.word ops 2 = .ok 0x8001 ∧
      execute .empty .subi ops m = .trapped .arithmeticOverflow m ∧
      ∃ after, execute .empty .subis ops m = .done after ∧
        FormsAgree m after (execute .empty .subi ops m) ∧
        after.cpu.x 1 = m.cpu.x 2 - signExtendLow 16 0x8001 := by
  intro m ops
  obtain ⟨hforms, hvalue⟩ := sumForms_agree .empty m
  have hsubi : Action.subi.Forms ops m.cpu 1 (2 ^ 31 + 32766) := by
    have hsum : (m.cpu.x 2).toInt - ((0x8001 : Word).setWidth 16).toInt = 2 ^ 31 + 32766 := by
      decide
    rw [← hsum]
    exact .subi rfl rfl rfl
  obtain ⟨after, hdone, hagree⟩ := hforms rfl hsubi
  have hd : Operand.register ops 0 = .ok 1 := rfl
  obtain ⟨after', hdone', hx⟩ := hvalue hd rfl rfl (by decide)
  rw [hdone] at hdone'
  cases hdone'
  have htrap : execute .empty .subi ops m = .trapped .arithmeticOverflow m :=
    (execute_of_forms .empty hsubi).trans (if_neg (by decide))
  exact ⟨rfl, hsubi, rfl, rfl, rfl, htrap, after, hdone, hagree.2 fun h => absurd h (by decide),
    hx.2 (by decide)⟩

/-- The least immediate is subtracted from zero by one form and added by the other. -/
theorem not_formsAgree_leastImmediate :
    let m : Machine := ⟨.initial ⟨false⟩, ⟨⟨#[]⟩, 0⟩, ""⟩
    let ops : List Word := [1, 31, 0x8000]
    Action.subi.flagForm? = some .subis ∧ Action.subi.Forms ops m.cpu 1 (2 ^ 15) ∧
      ∃ plain after, execute .empty .subi ops m = .done plain ∧
        execute .empty .subis ops m = .done after ∧ plain.cpu.x 1 = 0x8000 ∧
        after.cpu.x 1 = 0xFFFF8000 ∧ after.cpu.flags.overflow = false ∧
        ¬ FormsAgree m after (execute .empty .subi ops m) := by
  intro m ops
  have hsubi : Action.subi.Forms ops m.cpu 1 (2 ^ 15) := by
    have hsum : (m.cpu.x 31).toInt - ((0x8000 : Word).setWidth 16).toInt = 2 ^ 15 := by decide
    rw [← hsum]
    exact .subi rfl rfl rfl
  have hplain := (execute_of_forms .empty hsubi).trans (if_pos (by decide))
  obtain ⟨carry, hdone⟩ := execute_flagForm .empty hsubi rfl
  have hoverflow := Processor.overflow_setFlags_setX m.cpu 0xFFFF8000 0xFFFF8000 1 false carry
  refine ⟨rfl, hsubi, _, _, hplain, hdone, by decide, by cases carry <;> decide, hoverflow, ?_⟩
  rw [hplain]
  rintro (_ | ⟨-, hregisters⟩)
  exact absurd (congrArg (fun x : Vector Word 32 => x[1]) hregisters) (by
    cases carry <;> decide)

end

end LegMachine
