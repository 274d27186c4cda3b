import LegMachine.Proofs.Exec.Hazards
import LegMachine.Proofs.Exec.Operands
import LegMachine.Proofs.Exec.Step

/-!
# Safety of decoded instructions

What the catalog decodes has its operands (`exists_ofOperands_of_decode?`), so that it is executed
without a hazard. No instruction but the call of a service ends in a fault
(`Instruction.regular_run`); hence a step is done or stops at a trap, unless a service faults
(`exists_service_of_step_eq_fault`).
-/

namespace LegMachine

/-! ## Operands of decoded words -/

namespace Operand

open OperandKind

variable {ops : List Word} {widths : List Nat}

theorem register_of_lt {position : Nat} {v : Word} (h : ops[position]? = some v)
    (hv : v.toNat < 32) : register ops position = .ok ⟨v.toNat, hv⟩ := by
  unfold register word
  rw [h]
  exact dif_pos hv

theorem exists_two (h : AdmitsAll [.register, .register] widths ops)
    (make : Register → Register → Instruction) : ∃ i, two ops make = .ok i := by
  obtain _ | ⟨hn, _ | ⟨hk, _ | _⟩⟩ := h
  exact ⟨_, two_eq_ok.2 ⟨_, register_of_lt rfl hn, _, register_of_lt rfl hk, rfl⟩⟩

theorem exists_three (h : AdmitsAll [.register, .register, .register] widths ops)
    (make : Register → Register → Register → Instruction) : ∃ i, three ops make = .ok i := by
  obtain _ | ⟨hd, _ | ⟨hn, _ | ⟨hk, _ | _⟩⟩⟩ := h
  exact ⟨_, three_eq_ok.2
    ⟨_, register_of_lt rfl hd, _, register_of_lt rfl hn, _, register_of_lt rfl hk, rfl⟩⟩

theorem exists_immediate {kind : OperandKind} (h : AdmitsAll [kind] widths ops)
    (make : Word → Instruction) : ∃ i, immediate ops make = .ok i := by
  obtain _ | ⟨-, _ | _⟩ := h
  exact ⟨_, immediate_eq_ok.2 ⟨_, rfl, rfl⟩⟩

theorem exists_oneImmediate {kind : OperandKind} (h : AdmitsAll [.register, kind] widths ops)
    (make : Register → Word → Instruction) : ∃ i, oneImmediate ops make = .ok i := by
  obtain _ | ⟨hn, _ | ⟨-, _ | _⟩⟩ := h
  exact ⟨_, oneImmediate_eq_ok.2 ⟨_, register_of_lt rfl hn, _, rfl, rfl⟩⟩

theorem exists_twoImmediate {kind : OperandKind}
    (h : AdmitsAll [.register, .register, kind] widths ops)
    (make : Register → Register → Word → Instruction) : ∃ i, twoImmediate ops make = .ok i := by
  obtain _ | ⟨hd, _ | ⟨hn, _ | ⟨-, _ | _⟩⟩⟩ := h
  exact ⟨_, twoImmediate_eq_ok.2
    ⟨_, register_of_lt rfl hd, _, register_of_lt rfl hn, _, rfl, rfl⟩⟩

theorem exists_oneImmediates {kind kind' : OperandKind}
    (h : AdmitsAll [.register, kind, kind'] widths ops)
    (make : Register → Word → Word → Instruction) : ∃ i, oneImmediates ops make = .ok i := by
  obtain _ | ⟨hd, _ | ⟨-, _ | ⟨-, _ | _⟩⟩⟩ := h
  exact ⟨_, oneImmediates_eq_ok.2 ⟨_, register_of_lt rfl hd, _, rfl, _, rfl, rfl⟩⟩

end Operand

open Operand in
/-- Admissible operands make an instruction. -/
theorem Instruction.exists_ofOperands {action : Action} {widths : List Nat} {ops : List Word}
    (h : OperandKind.AdmitsAll action.operandKinds widths ops) :
    ∃ i, ofOperands action ops = .ok i := by
  cases action with
  | nop | svc => exact ⟨_, rfl⟩
  | add | adds | sub | subs | mul | smulh | umulh | sdiv | udiv | and | ands | orr | eor | stxr
  | fadds | fsubs | fmuls | fdivs | faddd | fsubd | fmuld | fdivd => exact exists_three h _
  | addi | addis | subi | subis | andi | andis | orri | eori | ldxr | ldur | ldurb | ldurh | stur
  | sturb | sturh | ldurs | ldurd | sturs | sturd | lsl | lsr => exact exists_twoImmediate h _
  | b | bl | bCond | bRel => exact exists_immediate h _
  | br =>
    obtain _ | ⟨hn, _ | _⟩ := h
    exact ⟨_, one_eq_ok.2 ⟨_, register_of_lt rfl hn, rfl⟩⟩
  | cbnz | cbz | cbnzRel | cbzRel | lda => exact exists_oneImmediate h _
  | movz | movk => exact exists_oneImmediates h _
  | fcmps | fcmpd => exact exists_two h _

theorem exists_ofOperands_of_decode? {w : Word} {d : Decoded}
    (h : instructionSet.decode? w = some d) :
    ∃ i, Instruction.ofOperands d.descriptor.action d.operands = .ok i :=
  Instruction.exists_ofOperands (admits_of_decode? h)

/-! ## Faults -/

/-- The activity is done, or it stops at a trap. -/
def Outcome.Regular {ε : Type} (o : Outcome ε) : Prop :=
  ∀ f after, o ≠ .fault f after

namespace Outcome

variable {ε : Type}

theorem regular_done (m : Machine) : (done m : Outcome ε).Regular := nofun

theorem regular_trapped (cause : ε) (m : Machine) : (trapped cause m).Regular := nofun

theorem Regular.andThen {o : Outcome ε} {next : Machine → Outcome ε} (ho : o.Regular)
    (hnext : ∀ m, (next m).Regular) : (o.andThen next).Regular := by
  cases o with
  | done m => exact hnext m
  | trapped cause m => exact regular_trapped cause m
  | fault f after => exact absurd rfl (ho f after)

end Outcome

namespace Machine

open Outcome

variable (m : Machine)

theorem regular_load (width : Width) (address : Word) (take : Word → Processor → Processor) :
    (m.load width address take).Regular := by
  unfold load
  split
  · exact regular_trapped _ m
  · exact regular_done _

theorem regular_store (width : Width) (address v : Word) : (m.store width address v).Regular := by
  unfold store
  split
  · exact regular_trapped _ m
  · exact regular_done _

theorem regular_checkPair (access : Access) (address : Word) :
    (m.checkPair access address).Regular := by
  unfold checkPair
  split
  · exact regular_done m
  · exact regular_trapped _ m

theorem regular_withPair (r : Register) {use : RegisterPair → Outcome TrapCause}
    (huse : ∀ pair, (use pair).Regular) : (m.withPair r use).Regular := by
  unfold withPair
  split
  · exact regular_trapped _ m
  · exact huse _

end Machine

open Outcome in
/-- No instruction but the call of a service ends in a fault. -/
theorem Instruction.regular_run {i : Instruction} (hi : i ≠ .service) (services : Registry)
    (m : Machine) : (i.run services m).Regular := by
  cases i with
  | service => exact absurd rfl hi
  | nop | logic | shift | transfer | setAddress => exact regular_done _
  | sum =>
    unfold run
    dsimp only
    split
    · exact regular_trapped _ m
    · exact regular_done _
  | moveWide =>
    unfold run
    dsimp only
    split
    · exact regular_done _
    · exact regular_trapped _ m
  | quotient =>
    unfold run
    dsimp only
    split <;> exact regular_done _
  | sumFlags d n addend =>
    unfold run addWithFlags?
    dsimp only
    rw [wide?_add (m.cpu.x n).toInt _ ((Addend.register n).value_bounds m.cpu)
      (addend.value_bounds m.cpu)]
    exact regular_done _
  | product part d n k =>
    obtain ⟨v, hv, -⟩ := Checked.product_eq part (m.cpu.x n) (m.cpu.x k)
    unfold run
    dsimp only
    rw [hv]
    exact regular_done _
  | load width d n offset => exact m.regular_load width _ _
  | store width d n offset => exact m.regular_store width _ _
  | storeExclusive t status n =>
    exact (m.regular_store .word _ _).andThen fun m => regular_done _
  | floatOp op precision d n k =>
    cases precision with
    | single => exact regular_done _
    | double =>
      exact m.regular_withPair d fun d => m.regular_withPair n fun n => m.regular_withPair k
        fun k => regular_done _
  | floatCompare precision n k =>
    cases precision with
    | single => exact regular_done _
    | double =>
      exact m.regular_withPair n fun n => m.regular_withPair k fun k => regular_done _
  | floatLoad precision d n offset =>
    cases precision with
    | single => exact m.regular_load .word _ _
    | double =>
      refine m.regular_withPair d fun pair => ?_
      exact ((m.regular_checkPair .load _).andThen fun m => m.regular_load .word _ _).andThen
        fun m => m.regular_load .word _ _
  | floatStore precision d n offset =>
    cases precision with
    | single => exact m.regular_store .word _ _
    | double =>
      refine m.regular_withPair d fun pair => ?_
      exact ((m.regular_checkPair .store _).andThen fun m => m.regular_store .word _ _).andThen
        fun m => m.regular_store .word _ _

/-- A fault of a step is the fault of a service that the step has called, if what is decoded has its
operands and a text. -/
theorem exists_service_of_step_eq_fault {env : Environment} {m after : Machine} {f : Fault}
    (hoperands : ∀ w d, env.decode w = some d →
      ∃ i, Instruction.ofOperands d.descriptor.action d.operands = .ok i)
    (hreadable : ∀ w d, env.decode w = some d → d.descriptor.isReadable = true)
    (h : step env m = .fault f after) :
    ∃ d s, m.Reads env d ∧ d.descriptor.action = .svc ∧
      env.services.find? (m.cpu.x serviceRegister) = some s ∧
      s.run m.advancePc = .fault f after := by
  rcases reads_or_trapped env m with ⟨d, w, hfetch, hdecode⟩ | ⟨trap, htrap, -⟩
  · obtain ⟨i, hi⟩ := hoperands w d hdecode
    have hrun : i.run env.services m.advancePc = .fault f after := by
      rw [step_eq hfetch hdecode, Decoded.report_of_isReadable (hreadable w d hdecode),
        executeAndSettle, execute, hi] at h
      dsimp only at h
      cases hrun : i.run env.services m.advancePc with
      | fault _ _ =>
        rw [hrun] at h
        cases h
        rfl
      | done _ | trapped _ _ =>
        rw [hrun] at h
        cases h
    by_cases hservice : i = .service
    · subst hservice
      unfold Instruction.run Registry.dispatch at hrun
      dsimp only at hrun
      split at hrun
      · cases hrun
      · next s hfind =>
        exact ⟨d, s, ⟨w, hfetch, hdecode⟩, Instruction.ofOperands_eq_service.1 hi, hfind, hrun⟩
    · exact absurd hrun (Instruction.regular_run hservice env.services _ f after)
  · rw [htrap] at h
    cases h

/-! ## Safety -/

theorem Template.length_fields_le {t : Template} {e : Encoding} (h : t.compile = .ok e) :
    e.fields.length ≤ maxOperands := by
  unfold compile at h
  split at h
  · cases h
  · split at h
    · cases h
    · next hle =>
      cases h
      unfold fields
      rw [List.length_map]
      exact Nat.le_of_not_lt hle

/-- Whatever word is decoded, its execution meets no hazard; a step is done or traps, unless it has
called a service that faults; and no compiled template extracts more operands than there may be. -/
theorem instructionSet_safe :
    (∀ w d, instructionSet.decode? w = some d → ∀ services m,
      Checked.execute services d.descriptor.action d.operands m =
        .ok (execute services d.descriptor.action d.operands m)) ∧
    (∀ services m, let env : Environment := ⟨instructionSet.decode?, services⟩
      (∃ after, step env m = .done after) ∨ (∃ trap after, step env m = .trapped trap after) ∨
        ∃ d s f after, m.Reads env d ∧ d.descriptor.action = .svc ∧
          services.find? (m.cpu.x serviceRegister) = some s ∧
          s.run m.advancePc = .fault f after) ∧
    ∀ (template : Template) e, template.compile = .ok e → ∀ w,
      (e.extract w).length ≤ maxOperands := by
  refine ⟨?_, ?_, ?_⟩
  · intro w d hd services m
    obtain ⟨i, hi⟩ := exists_ofOperands_of_decode? hd
    rw [Checked.execute_eq_ok hi services m, execute, hi]
  · intro services m env
    cases hstep : step env m with
    | done after => exact .inl ⟨after, rfl⟩
    | trapped trap after => exact .inr (.inl ⟨trap, after, rfl⟩)
    | fault f after =>
      have hoperands : ∀ w d, env.decode w = some d →
          ∃ i, Instruction.ofOperands d.descriptor.action d.operands = .ok i := by
        dsimp only [env]
        exact fun w d => exists_ofOperands_of_decode?
      have hreadable : ∀ w d, env.decode w = some d → d.descriptor.isReadable = true := by
        dsimp only [env]
        exact fun w d => isReadable_of_decode?
      obtain ⟨d, s, hreads, hsvc, hfind, hrun⟩ :=
        exists_service_of_step_eq_fault hoperands hreadable hstep
      exact .inr (.inr ⟨d, s, f, after, hreads, hsvc, hfind, hrun⟩)
  · intro template e he w
    unfold Encoding.extract
    rw [List.length_map]
    exact Template.length_fields_le he

/-- A pair is loaded from a memory that is too small for it: the step traps. -/
theorem instructionSet_safe_pairLoad :
    let services := Registry.empty
    let m : Machine :=
      ⟨Processor.initial ⟨false⟩, ⟨⟨#[0, 0, 0x5F, 0xD4]⟩, 0⟩, ""⟩
    let template := Catalog.floatingPoint[9].template
    instructionSet.decode? 0xD45F0000 =
        some ⟨Catalog.floatingPoint[9], [2, 31, 0], 0xD45F0000⟩ ∧
      Checked.execute services .ldurd [2, 31, 0] m =
        .ok (execute services .ldurd [2, 31, 0] m) ∧
      ((∃ after, step ⟨instructionSet.decode?, services⟩ m = .done after) ∨
        ∃ trap after, step ⟨instructionSet.decode?, services⟩ m = .trapped trap after) ∧
      ∃ e, template.compile = .ok e ∧ (e.extract 0xD45F0000).length ≤ maxOperands := by
  intro services m template
  obtain ⟨hexecute, hstep, hlength⟩ := instructionSet_safe
  obtain ⟨e, he⟩ : ∃ e, template.compile = .ok e := ⟨_, rfl⟩
  refine ⟨decode?_pairLoad, hexecute _ _ decode?_pairLoad services m, ?_, e, he,
    hlength template e he _⟩
  rcases hstep services m with hdone | htrapped | ⟨_, _, _, _, -, -, hfind, -⟩
  · exact .inl hdone
  · exact .inr htrapped
  · cases hfind

example (m : Machine) : Checked.execute .empty .add [1, 2] m = .error (.operand 2) := rfl

example (m : Machine) : Checked.execute .empty .fcmps [40, 0] m = .error (.floatRegister 40) := rfl

end LegMachine
